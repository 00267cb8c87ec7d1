import OsKernel.Lib.Places
import OsKernel.Lib.Runs
import OsKernel.Threads.Model

/-!
# Every thread is in one place

The slots of the thread module hold one thread each: what is active on a core, what is leaving
it, what a callback on it still has to put away, and what a call has in its hand, either taken
out of a queue or new. `Places` says that slots and queues hold every thread there is once,
`Control` where each core is in `block`. No step can be taken that loses or doubles a thread
as long as both hold, and every step keeps them.

A place is a function of the thread (`place`), and slots and queues show it. Stated like this,
that a thread is nowhere twice needs no comparison of pairs of places: two that show the same
thread are its one place. The general facts are in `Lib/Places.lean`; moving one thing is one
lemma there, and the lemmas of this file are its instances, by the code's words: `park`,
`fetch`, `schedule`, `enter`, `drop`.

`Kept` is the third part of the invariant. A thread in a queue was switched out by the call
that put it there, and is in that call still: a thread in the queue of a semaphore is in
`down()` on it. Without it, one could not say that what an `up()` takes out has been waiting
for it.

Idle threads are not counted. They are in no queue, which is proved; a core finds its own in
`idleThreads` when the ready queue has nothing.
-/

set_option autoImplicit false
set_option linter.unusedSectionVars false

namespace OsKernel.Threads

open Lib

variable {C N I J : Type}

/-- Where the thread module has a thread in hand. -/
inductive Slot (C N : Type)
  | active (core : C)
  /-- `activeThreads` names the next thread already -/
  | leaving (core : C)
  | callback (core : C)
  | call (t : TCB C N)
  /-- chosen by `t`, which is in `block` -/
  | block (t : TCB C N)
deriving DecidableEq

def Callback.held : Callback C N I J → Option N
  | run _ me => me.name
  | granted _ me => me.name
  | missed _ me => me.name
  | rouse next => next.name
  | notify | unlock => none

def Call.held : Call C N I J → Option N
  | creating tcb => some tcb
  | deleting it => it.name
  | up _ next => next.name
  | rouse _ _ _ next => next.name
  | _ => Option.none

def Block.held : Block C N I J → Option N
  | chosen _ next_tcb => next_tcb.name
  | _ => none

/-- What the thread has given to `block`. -/
def Block.action : Block C N I J → Option (Action I J)
  | outside => none
  | choosing f | chosen f _ | switching f _ | away f => some f

/-- The call that gives `f` to `block`; the timer can do so in any call. -/
def Action.Fits : Action I J → Call C N I J → Prop
  | yield, _ => True
  | stop, k => k = .stopping
  | down i, k => k = .down i
  | wait j old_epoch, k => k = .wait j old_epoch

/-- How a thread got into the queue. -/
def QueueId.Keeps : QueueId I J → Block C N I J → Prop
  | readyQ, _ => True
  | zombies, b => b = .away .stop
  | waiting i, b => b = .away (.down i)
  | queue j, b => ∃ old_epoch, b = .away (.wait j old_epoch)

/-- How a thread got into the hand of the callback. -/
def Callback.Keeps (reaper : J) : Callback C N I J → Block C N I J → Prop
  | run f _, b => b = .away f
  | granted i _, b => b = .away (.down i)
  | missed j _, b => ∃ old_epoch, b = .away (.wait j old_epoch)
  | rouse _, b => ∃ old_epoch, b = .away (.wait reaper old_epoch)
  | notify, _ | unlock, _ => True

/-- How a thread got into the hand of the call. -/
def Call.Keeps : Call C N I J → Block C N I J → Prop
  | creating _, b => b = .outside
  | deleting _, b => b = .away .stop
  | up i _, b => b = .away (.down i)
  | rouse j _ _ _, b => ∃ old_epoch, b = .away (.wait j old_epoch)
  | _, _ => True

variable [DecidableEq C] [DecidableEq N]

/-- What each slot holds; idle threads do not count. -/
def State.slot (s : State C N I J) : Slot C N → Option N
  | .active c => (s.activeThreads c).name
  | .leaving c => if s.stack c = s.activeThreads c then none else (s.stack c).name
  | .callback c => (s.callback c).bind Callback.held
  | .call t => (s.call t).held
  | .block t => (s.block t).held

section Slots

variable (s : State C N I J)

theorem slot_setCall (t : TCB C N) (k : Call C N I J) :
    (s.setCall t k).slot = Function.update s.slot (.call t) k.held := by
  funext p
  cases p with
  | call u =>
    by_cases hu : u = t
    · subst hu; simp [State.slot, State.setCall]
    · simp [State.slot, State.setCall, hu]
  | _ => rw [Function.update_of_ne (by simp)]; rfl

theorem slot_setBlock (t : TCB C N) (b : Block C N I J) :
    (s.setBlock t b).slot = Function.update s.slot (.block t) b.held := by
  funext p
  cases p with
  | block u =>
    by_cases hu : u = t
    · subst hu; simp [State.slot, State.setBlock]
    · simp [State.slot, State.setBlock, hu]
  | _ => rw [Function.update_of_ne (by simp)]; rfl

theorem slot_setCallback (c : C) (k : Option (Callback C N I J)) :
    (s.setCallback c k).slot = Function.update s.slot (.callback c) (k.bind Callback.held) := by
  funext p
  cases p with
  | callback d =>
    by_cases hd : d = c
    · subst hd; simp [State.slot, State.setCallback]
    · simp [State.slot, State.setCallback, hd]
  | _ => rw [Function.update_of_ne (by simp)]; rfl

theorem slot_setCall_same {t : TCB C N} {k : Call C N I J} (h : (s.call t).held = k.held) :
    (s.setCall t k).slot = s.slot := by
  rw [slot_setCall, ← h]
  exact Function.update_eq_self (Slot.call t) s.slot

theorem slot_setBlock_same {t : TCB C N} {b : Block C N I J} (h : (s.block t).held = b.held) :
    (s.setBlock t b).slot = s.slot := by
  rw [slot_setBlock, ← h]
  exact Function.update_eq_self (Slot.block t) s.slot

theorem slot_setCallback_same {c : C} {k : Option (Callback C N I J)}
    (h : (s.callback c).bind Callback.held = k.bind Callback.held) :
    (s.setCallback c k).slot = s.slot := by
  rw [slot_setCallback, ← h]
  exact Function.update_eq_self (Slot.callback c) s.slot

end Slots

/-! ## Where a core is

`CoreAt` lists what a core can be in the middle of, as far as its registers and `activeThreads`
say: in the code of a thread, at one of the places of `block`, or in a callback. `Control` has one
of these for each core, and a thread that no core is on is switched out or has never run.

`Places` is the other half: a single map from threads to places that agrees with every queue and
every slot. The lemmas about it are the moves a thread can make: from a slot to another, from a
slot to the end of a queue, from the front of a queue to a slot, into life and out of it. Each is
an instance of a rule of `Lib/Places.lean`. -/

/-- What the core `c` is doing. -/
inductive CoreAt (s : State C N I J) (c : C) : Prop
  | code (hc : s.callback c = none) (ha : s.activeThreads c = s.stack c)
      (hb : s.block (s.stack c) = .outside)
  | choosing (f : Action I J) (hc : s.callback c = none)
      (ha : s.activeThreads c = s.stack c) (hb : s.block (s.stack c) = .choosing f)
      (hp : s.no_preempt (s.stack c) = true)
  | chosen (f : Action I J) (next_tcb : TCB C N) (hc : s.callback c = none)
      (ha : s.activeThreads c = s.stack c) (hb : s.block (s.stack c) = .chosen f next_tcb)
      (hp : s.no_preempt (s.stack c) = true)
      (hn : ∀ d, next_tcb = .idle d → d = c ∧ (s.stack c).isIdle = false)
  | switching (f : Action I J) (hc : s.callback c = none)
      (hb : s.block (s.stack c) = .switching f (s.activeThreads c))
      (ha : s.activeThreads c ≠ s.stack c) (hp : s.no_preempt (s.activeThreads c) = true)
  | callback (k : Callback C N I J) (hc : s.callback c = some k)
      (ha : s.activeThreads c = s.stack c)
      (hb : s.block (s.stack c) = .outside ∨ ∃ f, s.block (s.stack c) = .away f)

/-- A thread that no core is on is switched out, or has never run. -/
def Parked (s : State C N I J) (t : TCB C N) : Prop :=
  s.block t = .outside ∨ ∃ f, s.block t = .away f

structure Control (s : State C N I J) : Prop where
  core : ∀ c, CoreAt s c
  parked : ∀ t, (∀ c, s.stack c ≠ t) → Parked s t
  idleStack : ∀ c d, s.stack c = .idle d → d = c
  idleActive : ∀ c d, s.activeThreads c = .idle d → d = c
  fits : ∀ t f, (s.block t).action = some f → f.Fits (s.call t)

/-- The thread is active on the core, or on its way out. -/
def OnCore (s : State C N I J) (c : C) (t : TCB C N) : Prop :=
  s.stack c = t ∨ s.activeThreads c = t

/-- The lists the queues hold, and the map from threads to places that all slots and queues
show. -/
structure Places (s : State C N I J) (line : QueueId I J → List N)
    (place : N → Place (Slot C N) (QueueId I J)) : Prop where
  threaded : Threaded s.queues fun q => (line q).map TCB.made
  placed : Placed s.slot line place
  live : ∀ n, s.live n = true ↔ place n ≠ .nowhere

/-- What has joined a queue belongs there. -/
def Gains (s : State C N I J) (line line' : QueueId I J → List N) : Prop :=
  ∀ q n, n ∈ line' q → n ∉ line q → q.Keeps (s.block (.made n))

theorem gains_refl (s : State C N I J) (line : QueueId I J → List N) : Gains s line line :=
  fun _ _ h hn => absurd h hn

theorem gains_append [DecidableEq I] [DecidableEq J] {s : State C N I J}
    {line : QueueId I J → List N} {q : QueueId I J} {n : N} (h : q.Keeps (s.block (.made n))) :
    Gains s line (Function.update line q (line q ++ [n])) := by
  intro r m hm hn
  by_cases hr : r = q
  · subst hr
    rw [Function.update_self] at hm
    rcases List.mem_append.mp hm with hm | hm
    · exact absurd hm hn
    · rw [List.mem_singleton.mp hm]
      exact h
  · rw [Function.update_of_ne hr] at hm
    exact absurd hm hn

theorem gains_tail [DecidableEq I] [DecidableEq J] {s : State C N I J}
    {line : QueueId I J → List N} {q : QueueId I J} {n : N} {l : List N} (h : line q = n :: l) :
    Gains s line (Function.update line q l) := by
  intro r m hm hn
  by_cases hr : r = q
  · subst hr
    rw [Function.update_self] at hm
    rw [h] at hn
    exact absurd (List.mem_cons_of_mem n hm) hn
  · rw [Function.update_of_ne hr] at hm
    exact absurd hm hn

/-- Every thread in a queue or in hand was switched out by the call that brought it there. -/
structure Kept (reaper : J) (s : State C N I J) (line : QueueId I J → List N) : Prop where
  queue : ∀ q n, n ∈ line q → q.Keeps (s.block (.made n))
  callback : ∀ c k n, s.callback c = some k → k.held = some n → k.Keeps reaper (s.block (.made n))
  call : ∀ t n, (s.call t).held = some n → (s.call t).Keeps (s.block (.made n))
  dead : ∀ n, s.live n = false → s.call (.made n) = .none ∨ s.call (.made n) = .stopping

namespace Places

variable [DecidableEq I] [DecidableEq J]

variable {s s' : State C N I J} {line : QueueId I J → List N}
  {place : N → Place (Slot C N) (QueueId I J)}

theorem same (P : Places s line place) (hq : s'.queues = s.queues) (hs : s'.slot = s.slot)
    (hl : s'.live = s.live) : Places s' line place :=
  ⟨hq ▸ P.threaded, hs ▸ P.placed, fun n => hl ▸ P.live n⟩

theorem shift (P : Places s line place) {p p' : Slot C N} (hp' : s.slot p' = none)
    (hq : s'.queues = s.queues)
    (hs : s'.slot = Function.update (Function.update s.slot p none) p' (s.slot p))
    (hl : s'.live = s.live) : Places s' line (relocate place (s.slot p) (.slot p')) := by
  refine ⟨hq ▸ P.threaded, hs ▸ P.placed.shift hp', ?_⟩
  intro n
  rw [hl, P.placed.somewhere rfl (by simp)]
  exact P.live n

/-- A thread in hand joins a queue. -/
theorem park (P : Places s line place) {p : Slot C N} {n : N} (q : QueueId I J)
    (hp : s.slot p = some n) (hq : s'.queues = s.queues.add q (.made n))
    (hs : s'.slot = Function.update s.slot p none) (hl : s'.live = s.live) :
    Places s' (Function.update line q (line q ++ [n])) (relocate place (some n) (.line q)) := by
  refine ⟨?_, hs ▸ P.placed.join q hp, ?_⟩
  · have hmap : (fun r => (Function.update line q (line q ++ [n]) r).map TCB.made) =
        Function.update (fun r => (line r).map (TCB.made (C := C))) q
          ((line q).map TCB.made ++ [TCB.made n]) := by
      funext r
      by_cases hr : r = q
      · subst hr; simp
      · simp [Function.update_of_ne hr]
    rw [hq, hmap]
    refine P.threaded.add fun r hr => ?_
    obtain ⟨m, hm, hmn⟩ := List.mem_map.mp hr
    injection hmn with hmn
    subst hmn
    exact P.placed.slot_not_line hp hm
  · intro m
    rw [hl, P.placed.somewhere hp (by simp)]
    exact P.live m

/-- What `remove` finds, by the list of the queue. -/
theorem take (P : Places s line place) (q : QueueId I J) :
    (line q = [] ∧ s.queues.remove q = (none, s.queues)) ∨
    ∃ n l qs, line q = n :: l ∧ s.queues.remove q = (some (.made n), qs) ∧
      Threaded qs fun r => (Function.update line q l r).map TCB.made := by
  cases hl : line q with
  | nil => exact Or.inl ⟨rfl, P.threaded.remove_nil (by simp [hl])⟩
  | cons n l =>
    obtain ⟨qs, hqs, T⟩ := P.threaded.remove_cons (q := q) (t := .made n) (m := l.map .made)
      (by simp [hl])
    refine Or.inr ⟨n, l, qs, rfl, hqs, ?_⟩
    have hmap : (fun r => (Function.update line q l r).map TCB.made) =
        Function.update (fun r => (line r).map (TCB.made (C := C))) q (l.map TCB.made) := by
      funext r
      by_cases hr : r = q
      · subst hr; simp
      · simp [Function.update_of_ne hr]
    rw [hmap]
    exact T

/-- A thread taken out of a queue is in hand. -/
theorem fetch (P : Places s line place) {q : QueueId I J} {n : N} {l : List N} {p : Slot C N}
    (hl : line q = n :: l) (hp : s.slot p = none)
    (T : Threaded s'.queues fun r => (Function.update line q l r).map TCB.made)
    (hs : s'.slot = Function.update s.slot p (some n)) (hv : s'.live = s.live) :
    Places s' (Function.update line q l) (relocate place (some n) (.slot p)) := by
  refine ⟨T, hs ▸ P.placed.leave hl hp, ?_⟩
  intro m
  rw [hv, P.live]
  by_cases hm : n = m
  · subst hm
    have hn := (P.placed.inLine q n).mp (by rw [hl]; exact List.mem_cons_self)
    rw [relocate_self, hn]
    simp
  · rw [relocate_ne (by simpa using hm)]

/-- `schedule` of a thread in hand. -/
theorem schedule {r : State C N I J} (P : Places s line place) {p : Slot C N} {tcb : TCB C N}
    (hp : s.slot p = tcb.name) (hq : r.queues = (s.schedule tcb).queues)
    (hs : r.slot = Function.update s.slot p none) (hv : r.live = s.live) :
    ∃ line' place', Places r line' place' ∧ Gains s line line' := by
  cases tcb with
  | idle d =>
    refine ⟨line, place, P.same hq ?_ hv, fun _ _ h hn => absurd h hn⟩
    rw [hs, Function.update_eq_self_iff, hp]
    rfl
  | made n => exact ⟨_, _, P.park .readyQ hp hq hs hv, gains_append trivial⟩

/-- What is in hand is on no core. -/
theorem not_onCore (P : Places s line place) {p : Slot C N} {n : N} (hp : s.slot p = some n)
    (ha : ∀ c, p ≠ .active c) (hl : ∀ c, p ≠ .leaving c) (c : C) : ¬ OnCore s c (.made n) := by
  intro h
  by_cases hac : s.activeThreads c = .made n
  · exact ha c (P.placed.slot_unique hp (by simp [State.slot, hac]))
  · have hsc : s.stack c = .made n := h.resolve_right hac
    exact hl c (P.placed.slot_unique hp (by simp [State.slot, hsc, Ne.symm hac]))

/-- A new thread, in the hand of its maker. -/
theorem enter (P : Places s line place) {p : Slot C N} {n : N} (hn : s.live n = false)
    (hp : s.slot p = none) (hq : s'.queues = s.queues)
    (hs : s'.slot = Function.update s.slot p (some n))
    (hv : s'.live = Function.update s.live n true) :
    Places s' line (relocate place (some n) (.slot p)) := by
  have hnp : place n = .nowhere := by
    by_contra h
    rw [(P.live n).mpr h] at hn
    cases hn
  refine ⟨hq ▸ P.threaded, hs ▸ P.placed.enter hnp hp, ?_⟩
  intro m
  rw [hv]
  by_cases hm : n = m
  · subst hm; simp
  · rw [Function.update_of_ne (Ne.symm hm), relocate_ne (by simpa using hm), P.live]

/-- `delete` of the thread in hand. -/
theorem drop (P : Places s line place) {p : Slot C N} {n : N} (hp : s.slot p = some n)
    (hq : s'.queues = s.queues) (hs : s'.slot = Function.update s.slot p none)
    (hv : s'.live = Function.update s.live n false) :
    Places s' line (relocate place (some n) .nowhere) := by
  refine ⟨hq ▸ P.threaded, hs ▸ hp ▸ P.placed.drop p, ?_⟩
  intro m
  rw [hv]
  by_cases hm : n = m
  · subst hm; simp
  · rw [Function.update_of_ne (Ne.symm hm), relocate_ne (by simpa using hm), P.live]

/-- A thread that is not there is on no core. -/
theorem dead_not_onCore (P : Places s line place) {n : N} (hn : s.live n = false) (c : C) :
    ¬ OnCore s c (.made n) := by
  have hnow : place n = .nowhere := by
    by_contra h
    rw [(P.live n).mpr h] at hn
    cases hn
  intro h
  by_cases hac : s.activeThreads c = .made n
  · have := (P.placed.inSlot (.active c) n).mp (by simp [State.slot, hac])
    rw [hnow] at this
    cases this
  · have hsc : s.stack c = .made n := h.resolve_right hac
    have := (P.placed.inSlot (.leaving c) n).mp (by simp [State.slot, hsc, Ne.symm hac])
    rw [hnow] at this
    cases this

theorem line_not_onCore (P : Places s line place) {q : QueueId I J} {n : N} (hn : n ∈ line q)
    (c : C) : ¬ OnCore s c (.made n) := by
  intro h
  by_cases hac : s.activeThreads c = .made n
  · exact P.placed.slot_not_line (p := .active c) (by simp [State.slot, hac]) hn
  · have hsc : s.stack c = .made n := h.resolve_right hac
    exact P.placed.slot_not_line (p := .leaving c)
      (by simp [State.slot, hsc, Ne.symm hac]) hn

/-- The active thread leaves the core, and then the chosen one is active. -/
theorem activate (P : Places s line place) {c : C} {f : Action I J} {next_tcb : TCB C N}
    (ha : s.activeThreads c = s.stack c) (hne : next_tcb ≠ s.stack c)
    (hb : s.slot (.block (s.stack c)) = next_tcb.name) :
    ∃ place', Places (s.activate c (s.stack c) f next_tcb) line place' := by
  have h₁ : s.slot (.leaving c) = none := by simp [State.slot, ha]
  have P₁ := P.placed.shift (p := .active c) h₁
  have P₂ := P₁.shift (p := .block (s.stack c)) (show _ = none from
    (Function.update_of_ne (by simp) _ _).trans (Function.update_self (Slot.active c) none s.slot))
  have hs : (s.activate c (s.stack c) f next_tcb).slot =
      Function.update (Function.update (Function.update (Function.update s.slot (.active c) none)
        (.leaving c) (s.slot (.active c))) (.block (s.stack c)) none) (.active c) next_tcb.name := by
    funext p
    cases p with
    | active d =>
      by_cases hd : d = c
      · subst hd; simp [State.slot, State.activate]
      · simp [State.slot, State.activate, State.setPreempt, hd]
    | leaving d =>
      by_cases hd : d = c
      · subst hd
        simp [State.slot, State.activate, State.setPreempt, Ne.symm hne, ha]
      · simp [State.slot, State.activate, State.setPreempt, hd]
    | block u =>
      by_cases hu : u = s.stack c
      · subst hu; simp [State.slot, State.activate, Block.held]
      · simp [State.slot, State.activate, hu]
    | callback d => simp [State.slot, State.activate, State.setPreempt]
    | call u => simp [State.slot, State.activate, State.setPreempt]
  have hn : Function.update (Function.update s.slot (.active c) none) (.leaving c)
      (s.slot (.active c)) (.block (s.stack c)) = next_tcb.name := by simp [hb]
  have hsome := P₁.somewhere hn (x := .slot (.active c)) (by simp)
  rw [hn, ← hs] at P₂
  refine ⟨_, P.threaded, P₂, ?_⟩
  intro n
  rw [hsome, P.placed.somewhere rfl (by simp)]
  exact P.live n

/-- The old thread is away, in the hand of the callback. -/
theorem contextSwitch (P : Places s line place) {c : C} {f : Action I J}
    (hc : s.callback c = none) (hne : s.activeThreads c ≠ s.stack c)
    (hb : (s.block (s.stack c)).held = none) :
    ∃ place', Places (s.contextSwitch c (s.stack c) f (s.activeThreads c)) line place' := by
  refine ⟨_, P.shift (p := .leaving c) (show s.slot (.callback c) = none by simp [State.slot, hc])
    rfl ?_ rfl⟩
  funext p
  cases p with
  | active d => simp [State.slot, State.contextSwitch, State.setPreempt]
  | leaving d =>
    by_cases hd : d = c
    · subst hd; simp [State.slot, State.contextSwitch, State.setPreempt]
    · simp [State.slot, State.contextSwitch, State.setPreempt, hd]
  | block u =>
    by_cases hu : u = s.stack c
    · subst hu
      simp only [State.slot, State.contextSwitch, Function.update_self]
      rw [Function.update_of_ne (by simp), Function.update_of_ne (by simp)]
      exact hb.symm
    · simp [State.slot, State.contextSwitch, hu]
  | callback d =>
    by_cases hd : d = c
    · subst hd
      simp [State.slot, State.contextSwitch, Callback.held, Ne.symm hne]
    · simp [State.slot, State.contextSwitch, State.setPreempt, hd]
  | call u => simp [State.slot, State.contextSwitch, State.setPreempt]

end Places

/-! ## One core at a time

A step of one core changes the thread that the core is on, and the invariant speaks of all cores.
These lemmas reduce it to the one: the others are where they were, since no thread is on two
cores. -/

variable {s s' : State C N I J}

theorem CoreAt.congr {c : C} (h : CoreAt s c) (hs : s'.stack c = s.stack c)
    (ha : s'.activeThreads c = s.activeThreads c) (hc : s'.callback c = s.callback c)
    (hb : s'.block (s.stack c) = s.block (s.stack c))
    (hp : ∀ t, OnCore s c t → s'.no_preempt t = s.no_preempt t) : CoreAt s' c := by
  have hps := hp (s.stack c) (Or.inl rfl)
  have hpa := hp (s.activeThreads c) (Or.inr rfl)
  cases h with
  | code h₁ h₂ h₃ =>
    exact .code (hc.trans h₁) (by rw [ha, hs, h₂]) (by rw [hs, hb, h₃])
  | choosing f h₁ h₂ h₃ h₄ =>
    exact .choosing f (hc.trans h₁) (by rw [ha, hs, h₂]) (by rw [hs, hb, h₃]) (by rw [hs, hps, h₄])
  | chosen f n h₁ h₂ h₃ h₄ h₅ =>
    exact .chosen f n (hc.trans h₁) (by rw [ha, hs, h₂]) (by rw [hs, hb, h₃]) (by rw [hs, hps, h₄])
      (by rw [hs]; exact h₅)
  | switching f h₁ h₂ h₃ h₄ =>
    exact .switching f (hc.trans h₁) (by rw [hs, hb, ha, h₂]) (by rw [hs, ha]; exact h₃)
      (by rw [ha, hpa, h₄])
  | callback k h₁ h₂ h₃ =>
    exact .callback k (hc.trans h₁) (by rw [ha, hs, h₂]) (by rw [hs, hb]; exact h₃)

namespace Control

theorem same (K : Control s) (hs : s'.stack = s.stack) (ha : s'.activeThreads = s.activeThreads)
    (hc : s'.callback = s.callback) (hb : s'.block = s.block)
    (hp : s'.no_preempt = s.no_preempt)
    (hf : ∀ t f, (s.block t).action = some f → s'.call t = s.call t) : Control s' where
  core c := (K.core c).congr (by rw [hs]) (by rw [ha]) (by rw [hc]) (by rw [hb])
    fun t _ => by rw [hp]
  parked t ht := by
    have h := K.parked t fun c => by rw [← hs]; exact ht c
    unfold Parked at h ⊢
    rwa [hb]
  idleStack c d h := K.idleStack c d (by rw [← hs]; exact h)
  idleActive c d h := K.idleActive c d (by rw [← ha]; exact h)
  fits t f h := by
    rw [hb] at h
    rw [hf t f h]
    exact K.fits t f h

/-- A step of core `c` leaves the other cores where they are. -/
theorem at_core (K : Control s) (c : C) (hat : CoreAt s' c)
    (hs : ∀ d, d ≠ c → s'.stack d = s.stack d)
    (ha : ∀ d, d ≠ c → s'.activeThreads d = s.activeThreads d)
    (hc : ∀ d, d ≠ c → s'.callback d = s.callback d)
    (hb : ∀ d, d ≠ c → s'.block (s.stack d) = s.block (s.stack d))
    (hp : ∀ d, d ≠ c → ∀ t, OnCore s d t → s'.no_preempt t = s.no_preempt t)
    (hpk : ∀ t, (∀ d, s'.stack d ≠ t) → Parked s' t)
    (hi : ∀ d, s'.stack c = .idle d → d = c) (hi' : ∀ d, s'.activeThreads c = .idle d → d = c)
    (hf : ∀ t f, (s'.block t).action = some f → f.Fits (s'.call t)) : Control s' where
  core d := by
    by_cases hd : d = c
    · subst hd
      exact hat
    · exact (K.core d).congr (hs d hd) (ha d hd) (hc d hd) (hb d hd) (hp d hd)
  parked := hpk
  idleStack d e h := by
    by_cases hd : d = c
    · subst hd
      exact hi e h
    · exact K.idleStack d e (by rw [← hs d hd]; exact h)
  idleActive d e h := by
    by_cases hd : d = c
    · subst hd
      exact hi' e h
    · exact K.idleActive d e (by rw [← ha d hd]; exact h)
  fits := hf

/-- No thread is on two cores. -/
theorem onCore_inj (K : Control s) {line : QueueId I J → List N}
    {place : N → Place (Slot C N) (QueueId I J)} (P : Placed s.slot line place) {c d : C}
    {t : TCB C N} (hc : OnCore s c t) (hd : OnCore s d t) : c = d := by
  cases t with
  | idle e =>
    have h : ∀ x, OnCore s x (.idle e) → e = x := by
      intro x hx
      cases hx with
      | inl h => exact K.idleStack x e h
      | inr h => exact K.idleActive x e h
    exact (h c hc).symm.trans (h d hd)
  | made n =>
    have h : ∀ x, OnCore s x (.made n) → s.slot (.active x) = some n ∨ s.slot (.leaving x) = some n := by
      intro x hx
      by_cases hax : s.activeThreads x = .made n
      · exact Or.inl (by simp [State.slot, hax])
      · have hsx : s.stack x = .made n := hx.resolve_right hax
        refine Or.inr ?_
        simp [State.slot, hsx, Ne.symm hax]
    rcases h c hc with hc | hc <;> rcases h d hd with hd | hd <;>
      have := P.slot_unique hc hd <;> simp_all

/-- A step of core `c` inside `block`, or into it or out of it: only its own thread changes. -/
theorem in_block (K : Control s) {line : QueueId I J → List N}
    {place : N → Place (Slot C N) (QueueId I J)} (P : Placed s.slot line place) (c : C)
    (hat : CoreAt s' c) (hs : s'.stack = s.stack) (ha : s'.activeThreads = s.activeThreads)
    (hc : ∀ d, d ≠ c → s'.callback d = s.callback d)
    (hb : ∀ u, u ≠ s.stack c → s'.block u = s.block u)
    (hp : ∀ u, u ≠ s.stack c → s'.no_preempt u = s.no_preempt u)
    (hk : ∀ u, u ≠ s.stack c → s'.call u = s.call u)
    (hf : ∀ f, (s'.block (s.stack c)).action = some f → f.Fits (s'.call (s.stack c))) :
    Control s' := by
  have hne : ∀ d, d ≠ c → ∀ u, OnCore s d u → u ≠ s.stack c := by
    intro d hd u hu huc
    exact hd (K.onCore_inj P hu (Or.inl huc.symm))
  refine K.at_core c hat (fun d _ => by rw [hs]) (fun d _ => by rw [ha]) hc ?_ ?_ ?_ ?_ ?_ ?_
  · intro d hd
    exact hb _ (hne d hd _ (Or.inl rfl))
  · intro d hd u hu
    exact hp u (hne d hd u hu)
  · intro u hu
    have hus : u ≠ s.stack c := by
      intro h
      exact hu c (by rw [hs, h])
    have h := K.parked u fun d => by rw [← hs]; exact hu d
    unfold Parked at h ⊢
    rwa [hb u hus]
  · intro d h
    exact K.idleStack c d (by rw [← hs]; exact h)
  · intro d h
    exact K.idleActive c d (by rw [← ha]; exact h)
  · intro u f h
    by_cases hu : u = s.stack c
    · subst hu
      exact hf f h
    · rw [hb u hu] at h
      rw [hk u hu]
      exact K.fits u f h

end Control

/-- A step of core `c` touches only its own thread; what is new in a queue or a hand has to belong
there. -/
theorem Kept.at_core [DecidableEq I] [DecidableEq J] {reaper : J} {line line' : QueueId I J → List N}
    {place place' : N → Place (Slot C N) (QueueId I J)} (H : Kept reaper s line)
    (P : Places s line place) (P' : Places s' line' place') (c : C) (hstack : s'.stack = s.stack)
    (hb : ∀ u, u ≠ s.stack c → s'.block u = s.block u)
    (hk : ∀ u, u ≠ s.stack c → s'.call u = s.call u)
    (hv : s'.live = s.live) (hq : Gains s line line')
    (hcb : ∀ d k n, s'.callback d = some k → s.callback d ≠ some k → k.held = some n →
      k.Keeps reaper (s.block (.made n)))
    (hcall : ∀ n, s'.call (s.stack c) ≠ s.call (s.stack c) → (s'.call (s.stack c)).held = some n →
      (s'.call (s.stack c)).Keeps (s.block (.made n))) :
    Kept reaper s' line' := by
  have hoff : ∀ n, (∀ d, ¬ OnCore s' d (.made n)) → s'.block (.made n) = s.block (.made n) := by
    intro n hn
    refine hb _ fun h => hn c (Or.inl ?_)
    rw [hstack, h]
  refine ⟨?_, ?_, ?_, ?_⟩
  · intro q n hn
    rw [hoff n (P'.line_not_onCore hn)]
    by_cases hl : n ∈ line q
    · exact H.queue q n hl
    · exact hq q n hn hl
  · intro d k n hd hh
    have hp : s'.slot (.callback d) = some n := by simp [State.slot, hd, hh]
    rw [hoff n (P'.not_onCore hp (by simp) (by simp))]
    by_cases hs : s.callback d = some k
    · exact H.callback d k n hs hh
    · exact hcb d k n hd hs hh
  · intro u n hh
    have hp : s'.slot (.call u) = some n := hh
    rw [hoff n (P'.not_onCore hp (by simp) (by simp))]
    by_cases hs : s'.call u = s.call u
    · rw [hs] at hh ⊢
      exact H.call u n hh
    · have hu : u = s.stack c := by
        by_contra h
        exact hs (hk u h)
      subst hu
      exact hcall n hs hh
  · intro n hn
    rw [hv] at hn
    rw [hk _ fun h => P.dead_not_onCore hn c (Or.inl h.symm)]
    exact H.dead n hn

end OsKernel.Threads
