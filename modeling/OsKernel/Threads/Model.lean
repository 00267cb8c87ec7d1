import OsKernel.Threads.Queue

/-!
# Threads, `block`, and what blocks

The thread module of the kernel (`threads.h`, `threads.cc`, the switch in `context.S`), with
the semaphores and condition variables that block threads, as one step function over all
cores. A step is a section under a lock, an operation on a queue, or a context switch; the
label says which core takes it and, where the code of the running thread has a choice, what it
calls.

`block` is split where another core or the timer can come between: `no_preempt` is set
(`choosing`), the ready queue has been asked (`chosen`), `activeThreads` is written
(`switching`). The switch itself leaves the old thread `away` and its callback pending on the
core, on the stack of the new thread, which goes on when the callback is through. A thread
keeps what it was calling beside its position in `block`, since the timer may call `yield` in
the middle of any call.

Failed assertions stop the core that meets them: there is no step. The timer is let in
wherever the code of a thread runs, also where a lock keeps interrupts off, so the runs here
include all runs of the machine.

## Why one model

Semaphores and conditions call `block`, `block` runs their callbacks, the callbacks schedule,
and the reaper is a thread that waits on a condition. A model of a semaphore alone has to say
what being blocked is, and would say it in the words of its own specification. Here it is what
the code makes of it: a thread is in the queue of a semaphore because a callback on some core
put it there, after the core had left its stack. What goes wrong in such code goes wrong
between two of these steps.

So the three kinds of results are about one step function: where each thread is
(`Threads/Sound.lean`), what the semaphores count (`Threads/Semaphore.lean`), whom a condition
rouses (`Threads/Condition.lean`).

## What it does not do

What a thread computes is nothing here: it calls something or it does not. Stacks, registers
and CR3 go with the thread (of CR3, see `Vmm/Cores.lean`). The spin locks around the sections
are not steps, since a section is one; that they exclude each other is in
`Lock/InterruptSafe.lean`. Which thread runs next is the ready queue's order, and when the
timer comes is the run's choice.

`C`, `N`, `I` and `J` are the cores, the addresses of threads, the semaphores and the
conditions, any types at all. The log has what has happened and nothing reads it.
-/

set_option autoImplicit false

namespace OsKernel.Threads

/-- A thread: the idle thread of a core, or one made by `thread()`, by its address. -/
inductive TCB (C N : Type)
  | idle (core : C)
  | made (n : N)
deriving DecidableEq

namespace TCB

variable {C N : Type}

def isIdle : TCB C N → Bool
  | idle _ => true
  | made _ => false

/-- The address, unless the thread is idle. -/
def name : TCB C N → Option N
  | idle _ => none
  | made n => some n

@[simp] theorem isIdle_idle (c : C) : (idle c : TCB C N).isIdle = true := rfl

@[simp] theorem isIdle_made (n : N) : (made n : TCB C N).isIdle = false := rfl

@[simp] theorem name_idle (c : C) : (idle c : TCB C N).name = none := rfl

@[simp] theorem name_made (n : N) : (made n : TCB C N).name = some n := rfl

theorem eq_made_of_name {t : TCB C N} {n : N} (h : t.name = some n) : t = made n := by
  cases t with
  | idle c => simp at h
  | made m => rw [name_made, Option.some.injEq] at h; rw [h]

end TCB

/-- The queues of threads: of the thread module, of each semaphore, of each condition. -/
inductive QueueId (I J : Type)
  | readyQ
  | zombies
  | waiting (i : I)
  | queue (j : J)
deriving DecidableEq

inductive BlockOption
  | mustBlock
  | canReturn

/-- The callbacks given to `block`, by the function that gives them. -/
inductive Action (I J : Type)
  | yield
  | stop
  | down (i : I)
  | wait (j : J) (old_epoch : BitVec 64)

/-- What the same function gives `block` as its option. -/
def Action.blockOption {I J : Type} : Action I J → BlockOption
  | yield | wait _ _ => .canReturn
  | stop | down _ => .mustBlock

/-- Where a thread is in `block`. -/
inductive Block (C N I J : Type)
  | outside
  | choosing (f : Action I J)
  | chosen (f : Action I J) (next_tcb : TCB C N)
  | switching (f : Action I J) (next_tcb : TCB C N)
  | away (f : Action I J)

/-- What a thread is in the middle of calling. -/
inductive Call (C N I J : Type)
  | none
  /-- `thread()`: the new thread is not scheduled yet -/
  | creating (tcb : N)
  /-- `delete_zombies()` or the reaper: taken out of `zombies` -/
  | deleting (it : TCB C N)
  /-- `stop()` -/
  | stopping
  /-- `Semaphore::down()`: the first test has failed -/
  | down (i : I)
  /-- `Semaphore::up()`: the lock is dropped, a thread taken out of `waiting` -/
  | up (i : I) (next : TCB C N)
  /-- `Condition::wait()`: the lock is dropped -/
  | wait (j : J) (old_epoch : BitVec 64)
  /-- `Condition::wait()`: back from `block` -/
  | relock (j : J)
  /-- `Condition::notify(limit)`: at the loop test -/
  | notify (j : J) (limit i : BitVec 64)
  /-- `Condition::notify(limit)`: a thread taken out of the queue -/
  | rouse (j : J) (limit i : BitVec 64) (next : TCB C N)

/-- What a core has to do on the stack of the thread it has switched to. -/
inductive Callback (C N I J : Type)
  | run (f : Action I J) (me : TCB C N)
  /-- the second test of `down()` has succeeded -/
  | granted (i : I) (me : TCB C N)
  /-- the epochs differ -/
  | missed (j : J) (me : TCB C N)
  /-- `reaper.put()`: `me` is in `zombies` -/
  | notify
  /-- `reaper.put()`: a thread taken out of the queue of the reaper's condition -/
  | rouse (next : TCB C N)
  | unlock

/-- Who has the lock of a condition: a thread, or the callback on a core. -/
inductive Holder (C N : Type)
  | thread (t : TCB C N)
  | callback (core : C)
deriving DecidableEq

/-- What is remembered of a run. -/
inductive Event (C N I J : Type)
  | asks (i : I) (t : TCB C N)
  | grants (i : I) (t : TCB C N)
  | returns (i : I) (t : TCB C N)
  | schedules (i : I) (t : TCB C N)
  | takes (i : I) (t : TCB C N)
  | ups (i : I)
  | releases (j : J) (t : TCB C N)
  | joins (j : J) (t : TCB C N)
  | notifies (j : J) (limit : BitVec 64)
  | notified (j : J)
deriving DecidableEq

structure State (C N I J : Type) where
  queues : Queues (QueueId I J) (TCB C N)
  activeThreads : C → TCB C N
  /-- whose stack the core is on -/
  stack : C → TCB C N
  callback : C → Option (Callback C N I J)
  no_preempt : TCB C N → Bool
  block : TCB C N → Block C N I J
  call : TCB C N → Call C N I J
  /-- the addresses of the threads there are -/
  live : N → Bool
  count : I → BitVec 64
  epoch : J → BitVec 64
  /-- the lock of the condition -/
  lock : J → Option (Holder C N)
  /-- what has happened, oldest first; nothing reads it -/
  log : List (Event C N I J)

variable {C N I J : Type}

/-- Once `threadsInit` has set up the idle threads, and each core runs its own. -/
def State.init (next : TCB C N → Option (TCB C N)) (count : I → BitVec 32) : State C N I J where
  queues := Queues.empty next
  activeThreads := TCB.idle
  stack := TCB.idle
  callback _ := none
  no_preempt _ := false
  block _ := .outside
  call _ := .none
  live _ := false
  count i := (count i).zeroExtend 64
  epoch _ := 0
  lock _ := none
  log := []

variable [DecidableEq C] [DecidableEq N] [DecidableEq I] [DecidableEq J]

namespace State

def emit (s : State C N I J) (es : List (Event C N I J)) : State C N I J :=
  { s with log := s.log ++ es }

omit [DecidableEq C] [DecidableEq N] [DecidableEq I] [DecidableEq J] in
@[simp] theorem emit_nil (s : State C N I J) : s.emit [] = s := by
  simp [emit]

def setCall (s : State C N I J) (t : TCB C N) (k : Call C N I J) : State C N I J :=
  { s with call := Function.update s.call t k }

def setBlock (s : State C N I J) (t : TCB C N) (b : Block C N I J) : State C N I J :=
  { s with block := Function.update s.block t b }

def setPreempt (s : State C N I J) (t : TCB C N) (b : Bool) : State C N I J :=
  { s with no_preempt := Function.update s.no_preempt t b }

def setCallback (s : State C N I J) (c : C) (k : Option (Callback C N I J)) : State C N I J :=
  { s with callback := Function.update s.callback c k }

def setLock (s : State C N I J) (j : J) (o : Option (Holder C N)) : State C N I J :=
  { s with lock := Function.update s.lock j o }

def setCount (s : State C N I J) (i : I) (n : BitVec 64) : State C N I J :=
  { s with count := Function.update s.count i n }

def setEpoch (s : State C N I J) (j : J) (e : BitVec 64) : State C N I J :=
  { s with epoch := Function.update s.epoch j e }

def setLive (s : State C N I J) (n : N) (b : Bool) : State C N I J :=
  { s with live := Function.update s.live n b }

def add (s : State C N I J) (q : QueueId I J) (t : TCB C N) : State C N I J :=
  { s with queues := s.queues.add q t }

/-- The first thread of the queue, if there is one, and the state without it. -/
def remove (s : State C N I J) (q : QueueId I J) : Option (TCB C N) × State C N I J :=
  ((s.queues.remove q).1, { s with queues := (s.queues.remove q).2 })

def schedule (s : State C N I J) (tcb : TCB C N) : State C N I J :=
  { s with queues := if tcb.isIdle then s.queues else s.queues.add .readyQ tcb }

/-! ## `block`

A thread in `block` is at one of four places, kept in the map `block`, and each function here is
the way from one place to the next. Between `activate` and `contextSwitch` the core's active
thread is not the one whose stack it is on, and between `contextSwitch` and `resume` the thread
that was left is in the hands of the callback, and nowhere else. -/

/-- The core takes its active thread into `block`. -/
def enterBlock (s : State C N I J) (c : C) (f : Action I J) : State C N I J :=
  (s.setPreempt (s.activeThreads c) true).setBlock (s.activeThreads c) (.choosing f)

/-- `block` returns to the function that gave it `f`. -/
def leaveBlock (s : State C N I J) (t : TCB C N) : Action I J → Option (State C N I J)
  | .yield => some (s.setBlock t .outside)
  | .stop => if t.isIdle then some (s.setBlock t .outside) else none
  | .down _ => some ((s.setBlock t .outside).setCall t .none)
  | .wait j _ => some ((s.setBlock t .outside).setCall t (.relock j))

/-- The ready queue is asked. -/
def choose (s : State C N I J) (c : C) (t : TCB C N) (f : Action I J) :
    Option (State C N I J) :=
  match s.remove .readyQ with
  | (some next_tcb, s) => some (s.setBlock t (.chosen f next_tcb))
  | (none, _) =>
    match f.blockOption with
    | .canReturn => (s.setPreempt t false).leaveBlock t f
    | .mustBlock =>
      if t.isIdle then if t = .idle c ∧ s.activeThreads c = t then some s else none
      else some (s.setBlock t (.chosen f (.idle c)))

/-- `activeThreads` is written; the next thread will not be preempted either. -/
def activate (s : State C N I J) (c : C) (t : TCB C N) (f : Action I J) (next_tcb : TCB C N) :
    State C N I J :=
  { s.setPreempt next_tcb true with
    activeThreads := Function.update s.activeThreads c next_tcb
    block := Function.update s.block t (.switching f next_tcb) }

/-- `gheith_contextSwitch`, up to the call of the handler. -/
def contextSwitch (s : State C N I J) (c : C) (t : TCB C N) (f : Action I J) (next_tcb : TCB C N) :
    State C N I J :=
  { (s.setPreempt t false).setPreempt next_tcb false with
    stack := Function.update s.stack c next_tcb
    block := Function.update s.block t (.away f)
    callback := Function.update s.callback c (some (.run f t)) }

/-- The handler returns, and the thread of this stack goes on. -/
def resume (s : State C N I J) (c : C) : Option (State C N I J) :=
  match s.block (s.stack c) with
  | .away f => (s.setCallback c none).leaveBlock (s.stack c) f
  -- a new thread starts in `entry`
  | _ => some (s.setCallback c none)

/-! ## Callbacks

A callback runs on the stack of the thread that was switched to, for the thread `me` that was
switched from. The callbacks of `down()` and of `wait()` look a second time at what the caller
saw, since an `up()` or a `notify()` may have come between. -/

def tryLock (s : State C N I J) (j : J) (h : Holder C N) : Option (State C N I J) :=
  match s.lock j with
  | none => some (s.setLock j (some h))
  | some _ => none

/-- The second test of `down()`. -/
def downAgain (s : State C N I J) (c : C) (i : I) (me : TCB C N) : Option (State C N I J) :=
  if me.isIdle then none
  else if 0 < s.count i then
    some (((s.setCount i (s.count i - 1)).setCallback c (some (.granted i me))).emit [.grants i me])
  else (s.add (.waiting i) me).resume c

/-- The locked section of `wait()` in its callback. -/
def waitAgain (s : State C N I J) (c : C) (j : J) (old_epoch : BitVec 64) (me : TCB C N) :
    Option (State C N I J) :=
  if me.isIdle then none
  else match s.lock j with
    | some _ => none
    | none =>
      if s.epoch j < old_epoch then none
      else if old_epoch = s.epoch j then ((s.add (.queue j) me).emit [.joins j me]).resume c
      else some (s.setCallback c (some (.missed j me)))

/-- The next step of a callback; `reaper` is the condition of the reaper. -/
def callbackStep (reaper : J) (s : State C N I J) (c : C) :
    Callback C N I J → Option (State C N I J)
  | .run .yield me => (s.schedule me).resume c
  | .run .stop me =>
    if me.isIdle then s.resume c
    else (s.tryLock reaper (.callback c)).map fun s =>
      (s.add .zombies me).setCallback c (some .notify)
  | .run (.down i) me => s.downAgain c i me
  | .run (.wait j old_epoch) me => s.waitAgain c j old_epoch me
  | .granted i me => ((s.schedule me).emit [.schedules i me]).resume c
  | .missed _ me => (s.schedule me).resume c
  | .notify =>
    let s := (s.setEpoch reaper (s.epoch reaper + 1)).emit [.notifies reaper 1]
    match s.remove (.queue reaper) with
    | (some next, s) => some (s.setCallback c (some (.rouse next)))
    | (none, _) => some (s.setCallback c (some .unlock))
  | .rouse next => some ((s.schedule next).setCallback c (some .unlock))
  | .unlock => ((s.setLock reaper none).emit [.notified reaper]).resume c

/-! ## Calls

What is left of a call once its locked section is done. The steps that touch a queue of threads
outside a lock of the semaphore or the condition, as `schedule` does after `up()`, are steps of
their own, and other cores may come before them. -/

/-- The thread whose code the core runs: no callback is pending and the thread is not in `block`. -/
def running (s : State C N I J) (c : C) : Option (TCB C N) :=
  match s.callback c, s.block (s.stack c) with
  | none, .outside => some (s.stack c)
  | _, _ => none

/-- The thread on this core, if it is free to call. -/
def free (s : State C N I J) (c : C) : Option (TCB C N) :=
  (s.running c).bind fun t =>
    match s.call t with
    | .none => some t
    | _ => none

/-- The next step of a call. -/
def callStep (s : State C N I J) (c : C) (t : TCB C N) :
    Call C N I J → Option (State C N I J)
  | .none => none
  | .creating tcb => some ((s.schedule (.made tcb)).setCall t .none)
  | .deleting (.made n) => some ((s.setLive n false).setCall t .none)
  | .deleting (.idle _) => none
  | .stopping => some (s.enterBlock c .stop)
  | .down i => some (s.enterBlock c (.down i))
  | .up i next => some (((s.schedule next).emit [.schedules i next]).setCall t .none)
  | .wait j old_epoch => some (s.enterBlock c (.wait j old_epoch))
  | .relock j => (s.tryLock j (.thread t)).map fun s => s.setCall t .none
  | .notify j limit i =>
    if i < limit then
      match s.remove (.queue j) with
      | (some next, s) => some (s.setCall t (.rouse j limit i next))
      | (none, _) => some ((s.emit [.notified j]).setCall t .none)
    else some ((s.emit [.notified j]).setCall t .none)
  | .rouse j limit i next => some ((s.schedule next).setCall t (.notify j limit (i + 1)))

/-- What the core is in the middle of goes on. -/
def go (reaper : J) (s : State C N I J) (c : C) : Option (State C N I J) :=
  match s.callback c with
  | some k => s.callbackStep reaper c k
  | none =>
    match s.block (s.stack c) with
    | .outside => s.callStep c (s.stack c) (s.call (s.stack c))
    | .choosing f => s.choose c (s.stack c) f
    | .chosen f next_tcb => some (s.activate c (s.stack c) f next_tcb)
    | .switching f next_tcb => some (s.contextSwitch c (s.stack c) f next_tcb)
    | .away _ => none

/-! ## What the code of a thread can call

The first section of each call, taken by a thread that is in no call (`free`). A thread of the
kernel can call these in any order: nothing is said here about the programs that threads run. -/

/-- `thread()`, with the address `new` gives. -/
def create (s : State C N I J) (t : TCB C N) (n : N) : Option (State C N I J) :=
  if s.live n then none
  else some <| ((((s.setLive n true).setPreempt (.made n) false).setBlock (.made n) .outside).setCall
    (.made n) .none).setCall t (.creating n)

/-- One turn of the loop in `delete_zombies()`, or of the reaper. -/
def reap (s : State C N I J) (t : TCB C N) : State C N I J :=
  match s.remove .zombies with
  | (some it, s) => s.setCall t (.deleting it)
  | (none, _) => s

/-- The first test of `down()`. -/
def down (s : State C N I J) (t : TCB C N) (i : I) : State C N I J :=
  if 0 < s.count i then
    (s.setCount i (s.count i - 1)).emit [.asks i t, .grants i t, .returns i t]
  else (s.emit [.asks i t]).setCall t (.down i)

/-- The section of `up()`. -/
def up (s : State C N I J) (t : TCB C N) (i : I) : State C N I J :=
  match s.remove (.waiting i) with
  | (some next, s) => (s.emit [.ups i, .takes i next]).setCall t (.up i next)
  | (none, _) => (s.setCount i (s.count i + 1)).emit [.ups i]

/-- `wait()` up to the release of the lock, which the caller has. -/
def wait (s : State C N I J) (t : TCB C N) (j : J) : Option (State C N I J) :=
  if s.lock j = some (.thread t) then
    some (((s.setLock j none).emit [.releases j t]).setCall t (.wait j (s.epoch j)))
  else none

/-- `notify(limit)` up to its loop; the caller has the lock. -/
def notify (s : State C N I J) (t : TCB C N) (j : J) (limit : BitVec 64) :
    Option (State C N I J) :=
  if s.lock j = some (.thread t) then
    some (((s.setEpoch j (s.epoch j + 1)).emit [.notifies j limit]).setCall t (.notify j limit 0))
  else none

/-- The lock may also be given back with a zombie in hand. -/
def unlock (s : State C N I J) (t : TCB C N) (j : J) : Option (State C N I J) :=
  match s.call t with
  | .none | .deleting _ => if s.lock j = some (.thread t) then some (s.setLock j none) else none
  | _ => none

/-- `apitHandler`. -/
def timer (s : State C N I J) (c : C) : Option (State C N I J) :=
  match s.callback c with
  | some _ => none
  | none =>
    let me := s.activeThreads c
    if me.isIdle ∨ s.no_preempt me then some s
    else some (s.enterBlock c .yield)

end State

/-- Who moves, and where there is a choice, how. -/
inductive Label (C N I J : Type)
  | go (core : C)
  | timer (core : C)
  | create (core : C) (n : N)
  | reap (core : C)
  | yield (core : C)
  | stop (core : C)
  | down (core : C) (i : I)
  | up (core : C) (i : I)
  | lock (core : C) (j : J)
  | unlock (core : C) (j : J)
  | wait (core : C) (j : J)
  | notify (core : C) (j : J) (limit : BitVec 64)

def step (reaper : J) (s : State C N I J) : Label C N I J → Option (State C N I J)
  | .go c => s.go reaper c
  | .timer c => s.timer c
  | .create c n => (s.free c).bind fun t => s.create t n
  | .reap c => (s.free c).map fun t => s.reap t
  | .yield c => (s.free c).map fun _ => s.enterBlock c .yield
  | .stop c => (s.free c).map fun t => s.setCall t .stopping
  | .down c i => (s.free c).map fun t => s.down t i
  | .up c i => (s.free c).map fun t => s.up t i
  | .lock c j => (s.free c).bind fun t => s.tryLock j (.thread t)
  | .unlock c j => (s.running c).bind fun t => s.unlock t j
  | .wait c j => (s.free c).bind fun t => s.wait t j
  | .notify c j limit => (s.free c).bind fun t => s.notify t j limit

end OsKernel.Threads
