import OsKernel.Threads.Sound

/-!
# Semaphores keep count

What `down()` has been granted on a semaphore, and what is left in its counter, is what it
started with and what `up()` has added; a thread waits only while the counter is 0; and a
`down()` is granted once and lets its thread go on once. The counter has 64 bits and `up()`
does not look at it, so the equation holds modulo 2^64, and as it stands until the counter
wraps.

The equation is about sections. `down()` gives up the lock between its two tests and `up()`
schedules after its section, and nothing here depends on what falls in between.

## How it is counted

The log remembers when a `down()` asks, when it is granted, and when its thread is let go.
`Balanced` relates these numbers to the counter and to where the threads are: as many
`down()`s of a thread are granted as have let it go, but for the one that is granted now
(`Granted`), and as many are asked for as are granted, but for the one that asks now
(`Asking`). A thread asks or is granted, not both, because it is in one place; so each step
changes these for one thread and one semaphore, and there is one lemma for each kind of
change.

The lemmas stand in the order of the code: `block`, the callbacks, the calls. Most of them say
that a step has nothing to do with semaphores (`same`, `call_step`, `callback_step`); five of
them are the steps that do.

Idle threads never wait: the callback asserts that its thread is none, so a core whose idle
thread fails the first test stops there. `IdleReturns` says that what an idle thread is
granted is granted by the first test, and returns in the same section.
-/

set_option autoImplicit false
set_option linter.unusedSectionVars false

namespace OsKernel.Threads

open Lib

variable {C N I J : Type} [DecidableEq C] [DecidableEq N] [DecidableEq I] [DecidableEq J]

namespace Event

/-- A `down()` on `i` is granted: in one of its sections, or by an `up()` that takes its thread. -/
def grantsOn (i : I) : Event C N I J → Bool
  | grants i' _ | takes i' _ => i' = i
  | _ => false

/-- The same, for one thread. -/
def grantsTo (i : I) (t : TCB C N) : Event C N I J → Bool
  | grants i' t' | takes i' t' => i' = i ∧ t' = t
  | _ => false

/-- `down()` on `i` returns directly, or its thread is scheduled. -/
def letsGo (i : I) (t : TCB C N) : Event C N I J → Bool
  | returns i' t' | schedules i' t' => i' = i ∧ t' = t
  | _ => false

def asksBy (i : I) (t : TCB C N) : Event C N I J → Bool
  | asks i' t' => i' = i ∧ t' = t
  | _ => false

def upsOn (i : I) : Event C N I J → Bool
  | ups i' => i' = i
  | _ => false

/-- Nothing to do with a semaphore. -/
def quiet : Event C N I J → Bool
  | releases _ _ | joins _ _ | notifies _ _ | notified _ => true
  | _ => false

end Event

/-- A `down()` on `i` is granted, and a callback or an `up()` is about to schedule its thread. -/
def Granted (s : State C N I J) (i : I) (t : TCB C N) : Prop :=
  (∃ c, s.callback c = some (.granted i t)) ∨ ∃ u, s.call u = .up i t

/-- The thread is in `down()` on `i` and is not granted it: it is not switched out yet, or its
callback has yet to look, or it waits in the queue. -/
def Asking (s : State C N I J) (i : I) (t : TCB C N) : Prop :=
  s.call t = .down i ∧ (s.block t ≠ .away (.down i) ∨
    (∃ c, s.callback c = some (.run (.down i) t)) ∨ t ∈ s.queues.contents (.waiting i))

/-- The books of the semaphores. -/
structure Balanced (count : I → BitVec 32) (s : State C N I J) : Prop where
  balance : ∀ i, ∃ wraps, s.log.countP (Event.grantsOn i) + (s.count i).toNat + 2 ^ 64 * wraps =
    (count i).toNat + s.log.countP (Event.upsOn i)
  empty : ∀ i, 0 < s.count i → s.queues.contents (.waiting i) = []
  going : ∀ i n, (Granted s i (.made n) → s.log.countP (Event.grantsTo i (.made n)) =
      s.log.countP (Event.letsGo i (.made n)) + 1) ∧
    (¬ Granted s i (.made n) → s.log.countP (Event.grantsTo i (.made n)) =
      s.log.countP (Event.letsGo i (.made n)))
  asking : ∀ i n, (Asking s i (.made n) → s.log.countP (Event.asksBy i (.made n)) =
      s.log.countP (Event.grantsTo i (.made n)) + 1) ∧
    (¬ Asking s i (.made n) → s.log.countP (Event.asksBy i (.made n)) =
      s.log.countP (Event.grantsTo i (.made n)))

/-! ## What leaves a view alone -/

variable {s s' : State C N I J}

theorem granted_congr
    (hcb : ∀ c i t, s'.callback c = some (.granted i t) ↔ s.callback c = some (.granted i t))
    (hcall : ∀ u i t, s'.call u = .up i t ↔ s.call u = .up i t) (i : I) (t : TCB C N) :
    Granted s' i t ↔ Granted s i t := by
  unfold Granted
  simp only [hcb, hcall]

theorem asking_congr {i : I} {t : TCB C N} (hcall : s'.call t = .down i ↔ s.call t = .down i)
    (hb : s.call t = .down i → (s'.block t = .away (.down i) ↔ s.block t = .away (.down i)))
    (hcb : ∀ c, s'.callback c = some (.run (.down i) t) ↔ s.callback c = some (.run (.down i) t))
    (hq : s'.queues.contents (.waiting i) = s.queues.contents (.waiting i)) :
    Asking s' i t ↔ Asking s i t := by
  unfold Asking
  rw [hcall]
  refine and_congr_right fun h => ?_
  simp only [ne_eq, hb h, hcb, hq]

/-- Only the block of `t` changes, and `t` is not away from `down()`. -/
theorem asking_block {t : TCB C N} (hcall : s'.call = s.call) (hcb : s'.callback = s.callback)
    (hq : ∀ i, s'.queues.contents (.waiting i) = s.queues.contents (.waiting i))
    (hb : ∀ u, u ≠ t → s'.block u = s.block u) (hold : ∀ i, s.block t ≠ .away (.down i))
    (hnew : ∀ i, s'.block t ≠ .away (.down i)) (i : I) (u : TCB C N) :
    Asking s' i u ↔ Asking s i u := by
  refine asking_congr (by rw [hcall]) ?_ (by intro c; rw [hcb]) (hq i)
  intro _
  by_cases hu : u = t
  · subst hu
    exact iff_of_false (hnew i) (hold i)
  · rw [hb u hu]

theorem granted_block (hcall : s'.call = s.call) (hcb : s'.callback = s.callback) (i : I)
    (u : TCB C N) : Granted s' i u ↔ Granted s i u :=
  granted_congr (by simp [hcb]) (by simp [hcall]) i u

section Where

variable {line : QueueId I J → List N} {place : N → Place (Slot C N) (QueueId I J)}

theorem not_granted (P : Places s line place) {p : Slot C N} {n : N} {i : I}
    (hp : s.slot p = some n) (hc : ∀ c, p = .callback c → s.callback c ≠ some (.granted i (.made n)))
    (hu : ∀ u, p = .call u → s.call u ≠ .up i (.made n)) : ¬ Granted s i (.made n) := by
  intro h
  rcases h with ⟨c, h⟩ | ⟨u, h⟩
  · exact hc c (P.placed.slot_unique hp (by simp [State.slot, h, Callback.held])) h
  · exact hu u (P.placed.slot_unique hp (by simp [State.slot, h, Call.held])) h

theorem not_granted_line (P : Places s line place) {q : QueueId I J} {n : N} {i : I}
    (hn : n ∈ line q) : ¬ Granted s i (.made n) := by
  intro h
  rcases h with ⟨c, h⟩ | ⟨u, h⟩
  · exact P.placed.slot_not_line (p := .callback c) (by simp [State.slot, h, Callback.held]) hn
  · exact P.placed.slot_not_line (p := .call u) (by simp [State.slot, h, Call.held]) hn

theorem mem_contents (P : Places s line place) {q : QueueId I J} {n : N} :
    .made n ∈ s.queues.contents q ↔ n ∈ line q := by
  rw [P.threaded.contents_eq]
  simp

end Where

theorem countP_quiet {log es : List (Event C N I J)} {p : Event C N I J → Bool}
    (hp : ∀ e, e.quiet = true → p e = false) (hes : ∀ e ∈ es, e.quiet = true) :
    (log ++ es).countP p = log.countP p := by
  rw [List.countP_append]
  have h : es.countP p = 0 := by
    rw [List.countP_eq_zero]
    intro e he
    rw [hp e (hes e he)]
    simp
  rw [h, Nat.add_zero]

namespace Balanced

variable {count : I → BitVec 32}

/-- A step that has nothing to do with semaphores. -/
theorem same (B : Balanced count s) (hc : s'.count = s.count)
    (hlog : ∃ es, s'.log = s.log ++ es ∧ ∀ e ∈ es, e.quiet = true)
    (hq : ∀ i, s'.queues.contents (.waiting i) = s.queues.contents (.waiting i))
    (hG : ∀ i n, Granted s' i (.made n) ↔ Granted s i (.made n))
    (hA : ∀ i n, Asking s' i (.made n) ↔ Asking s i (.made n)) : Balanced count s' := by
  obtain ⟨es, hl, hes⟩ := hlog
  have h₁ : ∀ i, s'.log.countP (Event.grantsOn i) = s.log.countP (Event.grantsOn i) := by
    intro i
    rw [hl]
    exact countP_quiet (by intro e he; cases e <;> first | rfl | cases he) hes
  have h₂ : ∀ i, s'.log.countP (Event.upsOn i) = s.log.countP (Event.upsOn i) := by
    intro i
    rw [hl]
    exact countP_quiet (by intro e he; cases e <;> first | rfl | cases he) hes
  have h₃ : ∀ i t, s'.log.countP (Event.grantsTo i t) = s.log.countP (Event.grantsTo i t) := by
    intro i t
    rw [hl]
    exact countP_quiet (by intro e he; cases e <;> first | rfl | cases he) hes
  have h₄ : ∀ i t, s'.log.countP (Event.letsGo i t) = s.log.countP (Event.letsGo i t) := by
    intro i t
    rw [hl]
    exact countP_quiet (by intro e he; cases e <;> first | rfl | cases he) hes
  have h₅ : ∀ i t, s'.log.countP (Event.asksBy i t) = s.log.countP (Event.asksBy i t) := by
    intro i t
    rw [hl]
    exact countP_quiet (by intro e he; cases e <;> first | rfl | cases he) hes
  refine ⟨?_, ?_, ?_, ?_⟩
  · intro i
    rw [h₁, h₂, hc]
    exact B.balance i
  · intro i h
    rw [hq]
    exact B.empty i (by rw [← hc]; exact h)
  · intro i n
    rw [hG, h₃, h₄]
    exact B.going i n
  · intro i n
    rw [hA, h₃, h₅]
    exact B.asking i n

variable {reaper : J} {line line' : QueueId I J → List N}
  {place place' : N → Place (Slot C N) (QueueId I J)} {c : C} {t : TCB C N}

/-! ## `block`

None of the steps through `block` is one of a semaphore. What they can still spoil is the place of
a thread: one that asks is in a queue, in the hand of a callback, or on its way into `block` with
its call still `down()`, and `enterBlock`, `activate` and `contextSwitch` move it from one of
these to the next. -/

/-- Only `t` moves, inside `block`. -/
theorem block_step (B : Balanced count s) (t : TCB C N) (hcall : s'.call = s.call)
    (hcb : s'.callback = s.callback) (hcount : s'.count = s.count) (hlog : s'.log = s.log)
    (hq : ∀ i, s'.queues.contents (.waiting i) = s.queues.contents (.waiting i))
    (hb : ∀ u, u ≠ t → s'.block u = s.block u) (hold : ∀ i, s.block t ≠ .away (.down i))
    (hnew : ∀ i, s'.block t ≠ .away (.down i)) : Balanced count s' :=
  B.same hcount ⟨[], by simp [hlog], by simp⟩ hq (fun i n => granted_block hcall hcb i _)
    fun i n => asking_block hcall hcb hq hb hold hnew i _

theorem enterBlock (B : Balanced count s) (S : Sound reaper s line place)
    (hr : s.running c = some t) (f : Action I J) : Balanced count (s.enterBlock c f) := by
  have hact := S.active hr
  obtain ⟨-, hb, rfl⟩ := running_iff.mp hr
  refine B.block_step (s.stack c) rfl rfl rfl rfl (fun _ => rfl) ?_ ?_ ?_
  · intro u hu
    rw [← hact] at hu
    exact Function.update_of_ne hu _ _
  · intro i
    rw [hb]
    simp
  · intro i
    simp [State.enterBlock, hact, State.setBlock]

/-- Back from `block` to a call that is not `down()`. -/
theorem relock (B : Balanced count s) {j : J} {e : BitVec 64} (hk : s.call t = .wait j e) :
    Balanced count (s.setCall t (.relock j)) := by
  refine B.same rfl ⟨[], by simp [State.setCall], by simp⟩ (fun _ => rfl) ?_ ?_
  · intro i n
    apply granted_congr
    · exact fun _ _ _ => Iff.rfl
    · intro u i' t'
      by_cases hu : u = t
      · subst hu; simp [State.setCall, hk]
      · simp [State.setCall, hu]
  · intro i n
    refine asking_congr ?_ (fun _ => Iff.rfl) (fun _ => Iff.rfl) rfl
    by_cases hu : TCB.made n = t
    · subst hu; simp [State.setCall, hk]
    · simp [State.setCall, hu]

theorem choose (B : Balanced count s) (S : Sound reaper s line place) {f : Action I J}
    (hb : s.block (s.stack c) = .choosing f)
    (h : s.choose c (s.stack c) f = some s') : Balanced count s' := by
  have hfits : f.Fits (s.call (s.stack c)) := S.control.fits _ f (by rw [hb]; rfl)
  have hold : ∀ i, s.block (s.stack c) ≠ .away (.down i) := by
    intro i
    rw [hb]
    simp
  have hother : ∀ (b : Block C N I J) (u : TCB C N), u ≠ s.stack c →
      Function.update s.block (s.stack c) b u = s.block u := by
    intro b u hu
    exact Function.update_of_ne hu _ _
  rcases S.places.take .readyQ with ⟨hl, hrem⟩ | ⟨n, l, qs, hl, hrem, T⟩
  · have hout : Balanced count ((s.setPreempt (s.stack c) false).setBlock (s.stack c) .outside) :=
      B.block_step (s.stack c) rfl rfl rfl rfl (fun _ => rfl) (hother _) hold
        (by simp [State.setBlock])
    have hidle : Balanced count (s.setBlock (s.stack c) (.chosen f (.idle c))) :=
      B.block_step (s.stack c) rfl rfl rfl rfl (fun _ => rfl) (hother _) hold
        (by simp [State.setBlock])
    have hmust : f.blockOption = .mustBlock → Balanced count s' := by
      intro ho
      simp only [State.choose, State.remove, hrem, ho] at h
      split at h
      · split at h
        · injection h with h
          subst h
          exact B
        · cases h
      · injection h with h
        subst h
        exact hidle
    cases f with
    | stop => exact hmust rfl
    | down i => exact hmust rfl
    | yield =>
      simp only [State.choose, State.remove, hrem, Action.blockOption, State.leaveBlock,
        Option.some.injEq] at h
      subst h
      exact hout
    | wait j e =>
      simp only [State.choose, State.remove, hrem, Action.blockOption, State.leaveBlock,
        Option.some.injEq] at h
      subst h
      exact hout.relock hfits
  · simp only [State.choose, State.remove, hrem, Option.some.injEq] at h
    subst h
    refine B.block_step (s.stack c) rfl rfl rfl rfl ?_ (hother _) hold (by simp [State.setBlock])
    intro i
    have := Queues.contents_remove_ne (s := s.queues) (q := .readyQ) (show QueueId.waiting i ≠ _ by simp)
    rwa [hrem] at this

theorem activate (B : Balanced count s) {f : Action I J} {next_tcb : TCB C N}
    (hb : s.block (s.stack c) = .chosen f next_tcb) :
    Balanced count (s.activate c (s.stack c) f next_tcb) := by
  refine B.block_step (s.stack c) rfl rfl rfl rfl (fun _ => rfl) ?_ ?_ ?_
  · intro u hu
    exact Function.update_of_ne hu _ _
  · intro j
    rw [hb]
    simp
  · intro j
    simp [State.activate]

/-- The thread that asks is now in the hand of its callback. -/
theorem contextSwitch (B : Balanced count s) (S : Sound reaper s line place) {f : Action I J}
    {next_tcb : TCB C N} (hc : s.callback c = none)
    (hb : s.block (s.stack c) = .switching f next_tcb) :
    Balanced count (s.contextSwitch c (s.stack c) f next_tcb) := by
  have hfits : f.Fits (s.call (s.stack c)) := S.control.fits _ f (by rw [hb]; rfl)
  have hcb : ∀ d, (s.contextSwitch c (s.stack c) f next_tcb).callback d =
      if d = c then some (.run f (s.stack c)) else s.callback d := by
    intro d
    by_cases hd : d = c
    · subst hd; simp [State.contextSwitch]
    · simp [State.contextSwitch, State.setPreempt, hd]
  have hblock : ∀ u, (s.contextSwitch c (s.stack c) f next_tcb).block u =
      if u = s.stack c then .away f else s.block u := by
    intro u
    by_cases hu : u = s.stack c
    · subst hu; simp [State.contextSwitch]
    · simp [State.contextSwitch, hu]
  refine B.same rfl ⟨[], by simp [State.contextSwitch, State.setPreempt], by simp⟩ (fun _ => rfl) ?_ ?_
  · intro i n
    apply granted_congr
    · intro d i' t'
      rw [hcb]
      by_cases hd : d = c
      · subst hd; simp [hc]
      · simp [hd]
    · exact fun _ _ _ => Iff.rfl
  · intro i n
    by_cases hn : TCB.made n = s.stack c
    · rw [hn]
      unfold Asking
      rw [hblock, if_pos rfl]
      refine and_congr_right fun hk => ?_
      refine iff_of_true ?_ (Or.inl (by rw [hb]; simp))
      -- whichever callback it is, `t` asks until the one of `down()` has looked
      replace hk : s.call (s.stack c) = .down i := hk
      by_cases hf : f = .down i
      · exact Or.inr (Or.inl ⟨c, by rw [hcb, if_pos rfl, hf]⟩)
      · exact Or.inl (by simpa using hf)
    · refine asking_congr Iff.rfl ?_ ?_ rfl
      · intro _
        rw [hblock, if_neg hn]
      · intro d
        rw [hcb]
        by_cases hd : d = c
        · subst hd
          simp [hc, Ne.symm hn]
        · simp [hd]

/-! ## Callbacks

The callback of `down()` is where the second test is made, on the stack of the next thread and
with interrupts off. It has two ends: the thread is granted and is scheduled in a step of its own
(`down_granted`, `granted_go`), or it waits in the queue (`down_waits`). Everything else that a
callback does, also the signal to the reaper, leaves the books alone (`callback_step`).

`grant` is the rule for the two steps in which a thread that asks is granted: the second test, and
the `up()` that takes it out of the queue. -/

theorem contents_schedule (s : State C N I J) (tcb : TCB C N) (i : I) :
    (s.schedule tcb).queues.contents (.waiting i) = s.queues.contents (.waiting i) := by
  unfold State.schedule
  split
  · rfl
  · exact Queues.contents_add_ne tcb (by simp)

theorem contents_take {q : QueueId I J} {o : Option (TCB C N)} {qs : Queues (QueueId I J) (TCB C N)}
    (h : s.queues.remove q = (o, qs)) {i : I} (hq : QueueId.waiting i ≠ q) :
    qs.contents (.waiting i) = s.queues.contents (.waiting i) := by
  have := Queues.contents_remove_ne (s := s.queues) hq
  rwa [h] at this

/-- The callback moves on, or is through; it is not one of a semaphore. -/
theorem callback_step (B : Balanced count s) {k : Callback C N I J} {o : Option (Callback C N I J)}
    (hk : s.callback c = some k) (hcb : s'.callback = Function.update s.callback c o)
    (hcall : s'.call = s.call) (hb : s'.block = s.block) (hcount : s'.count = s.count)
    (hlog : ∃ es, s'.log = s.log ++ es ∧ ∀ e ∈ es, e.quiet = true)
    (hq : ∀ i, s'.queues.contents (.waiting i) = s.queues.contents (.waiting i))
    (hold : ∀ i t, k ≠ .granted i t ∧ k ≠ .run (.down i) t)
    (hnew : ∀ i t, o ≠ some (.granted i t) ∧ o ≠ some (.run (.down i) t)) : Balanced count s' := by
  refine B.same hcount hlog hq ?_ ?_
  · intro i n
    apply granted_congr
    · intro d i' t'
      rw [hcb]
      by_cases hd : d = c
      · subst hd
        rw [Function.update_self, hk]
        exact iff_of_false (hnew i' t').1 (fun h => (hold i' t').1 (Option.some.inj h))
      · rw [Function.update_of_ne hd]
    · intro u i' t'
      rw [hcall]
  · intro i n
    refine asking_congr (by rw [hcall]) (fun _ => by rw [hb]) ?_ (hq i)
    intro d
    rw [hcb]
    by_cases hd : d = c
    · subst hd
      rw [Function.update_self, hk]
      exact iff_of_false (hnew i _).2 (fun h => (hold i _).2 (Option.some.inj h))
    · rw [Function.update_of_ne hd]

/-- The handler returns: a thread that goes on asks no more. -/
theorem resume {r : State C N I J} (B : Balanced count (r.setCallback c none))
    (S : Sound reaper s line place) (S' : Sound reaper s' line' place')
    (h : r.resume c = some s') (hstack : r.stack = s.stack) (hb : r.block = s.block)
    (hcall : r.call = s.call) : Balanced count s' := by
  unfold State.resume at h
  cases hbs : r.block (r.stack c) with
  | away f =>
    rw [hbs] at h
    have hother : ∀ u, u ≠ r.stack c → (((r.setCallback c none).setBlock (r.stack c)
        .outside).block u) = (r.setCallback c none).block u := by
      intro u hu
      exact Function.update_of_ne hu _ _
    have hfits : f.Fits (r.call (r.stack c)) := by
      rw [hcall, hstack]
      exact S.control.fits _ f (by rw [← hb, ← hstack, hbs]; rfl)
    cases f with
    | yield =>
      injection h with h
      subst h
      exact B.block_step (r.stack c) rfl rfl rfl rfl (fun _ => rfl) hother
        (by intro i; show r.block _ ≠ _; rw [hbs]; simp) (by simp [State.setBlock])
    | stop =>
      dsimp only [State.leaveBlock] at h
      split at h
      · injection h with h
        subst h
        exact B.block_step (r.stack c) rfl rfl rfl rfl (fun _ => rfl) hother
          (by intro i; show r.block _ ≠ _; rw [hbs]; simp) (by simp [State.setBlock])
      · cases h
    | wait j e =>
      injection h with h
      subst h
      have B₁ : Balanced count ((r.setCallback c none).setBlock (r.stack c) .outside) :=
        B.block_step (r.stack c) rfl rfl rfl rfl (fun _ => rfl) hother
          (by intro i; show r.block _ ≠ _; rw [hbs]; simp) (by simp [State.setBlock])
      exact B₁.relock hfits
    | down i =>
      injection h with h
      have hk : r.call (r.stack c) = .down i := hfits
      have hcb : s'.callback = (r.setCallback c none).callback := by rw [← h]; rfl
      have hqs : s'.queues = r.queues := by rw [← h]; rfl
      have hst : s'.stack = r.stack := by rw [← h]; rfl
      have hcall' : ∀ u, s'.call u = if u = r.stack c then .none else r.call u := by
        intro u
        rw [← h]
        by_cases hu : u = r.stack c
        · subst hu; simp [State.setCall]
        · simp [State.setCall, State.setBlock, State.setCallback, hu]
      refine B.same (by rw [← h]; rfl) ⟨[], by rw [← h]; simp [State.setCall, State.setBlock], by simp⟩
        (fun _ => by rw [hqs]; rfl) ?_ ?_
      · intro i' n
        apply granted_congr
        · intro d i' t'
          rw [hcb]
        · intro u i' t'
          rw [hcall']
          by_cases hu : u = r.stack c
          · subst hu
            rw [if_pos rfl]
            show Call.none = _ ↔ r.call _ = _
            simp [hk]
          · rw [if_neg hu]
            rfl
      · intro i' n
        by_cases hn : TCB.made n = r.stack c
        · refine iff_of_false ?_ ?_
          · intro ha
            have := ha.1
            rw [hcall', if_pos hn] at this
            cases this
          -- it is on a core, so it is in no queue and in no other hand
          · intro ha
            have hon : OnCore s' c (.made n) := Or.inl (by rw [hst, hn])
            have hi : i' = i := by
              have h₁ : r.call (.made n) = .down i' := ha.1
              rw [hn, hk] at h₁
              injection h₁ with h₁
              exact h₁.symm
            subst hi
            rcases ha.2 with ha | ⟨d, ha⟩ | ha
            · refine ha ?_
              show r.block _ = _
              rw [hn, hbs]
            · rw [← hcb] at ha
              exact S'.places.not_onCore (p := .callback d)
                (by simp [State.slot, ha, Callback.held]) (by simp) (by simp) c hon
            · replace ha : .made n ∈ r.queues.contents (.waiting i') := ha
              rw [← hqs] at ha
              exact S'.places.line_not_onCore ((mem_contents S'.places).mp ha) c hon
        · refine asking_congr ?_ ?_ (fun d => by rw [hcb]) (by rw [hqs]; rfl)
          · rw [hcall', if_neg hn]
            rfl
          · intro _
            rw [← h]
            show Function.update r.block _ _ _ = _ ↔ _
            rw [Function.update_of_ne hn]
            rfl
  | _ =>
    rw [hbs] at h
    injection h with h
    subst h
    exact B

/-- The thread that was granted is scheduled: it goes on once. -/
theorem let_go (B : Balanced count s) {i : I} {me : TCB C N} (hg : Granted s i me)
    (hlog : s'.log = s.log ++ [.schedules i me]) (hcount : s'.count = s.count)
    (hq : ∀ i, s'.queues.contents (.waiting i) = s.queues.contents (.waiting i))
    (hG : ∀ i' n, Granted s' i' (.made n) ↔ Granted s i' (.made n) ∧ ¬ (i' = i ∧ TCB.made n = me))
    (hA : ∀ i n, Asking s' i (.made n) ↔ Asking s i (.made n)) : Balanced count s' := by
  have h₁ : ∀ i', s'.log.countP (Event.grantsOn i') = s.log.countP (Event.grantsOn i') := by
    intro i'
    simp [hlog, Event.grantsOn]
  have h₂ : ∀ i', s'.log.countP (Event.upsOn i') = s.log.countP (Event.upsOn i') := by
    intro i'
    simp [hlog, Event.upsOn]
  have h₃ : ∀ i' t, s'.log.countP (Event.grantsTo i' t) = s.log.countP (Event.grantsTo i' t) := by
    intro i' t
    simp [hlog, Event.grantsTo]
  have h₄ : ∀ i' t, s'.log.countP (Event.asksBy i' t) = s.log.countP (Event.asksBy i' t) := by
    intro i' t
    simp [hlog, Event.asksBy]
  have h₅ : ∀ i' t, s'.log.countP (Event.letsGo i' t) =
      s.log.countP (Event.letsGo i' t) + if i' = i ∧ t = me then 1 else 0 := by
    intro i' t
    rw [hlog, List.countP_append, List.countP_singleton]
    by_cases h : i' = i ∧ t = me
    · obtain ⟨rfl, rfl⟩ := h
      simp [Event.letsGo]
    · have h' : ¬ (i = i' ∧ me = t) := fun h' => h ⟨h'.1.symm, h'.2.symm⟩
      simp [Event.letsGo, h, h']
  refine ⟨?_, ?_, ?_, ?_⟩
  · intro i'
    rw [h₁, h₂, hcount]
    exact B.balance i'
  · intro i' h
    rw [hq]
    exact B.empty i' (by rw [← hcount]; exact h)
  · intro i' n
    rw [hG, h₃, h₅]
    by_cases hme : i' = i ∧ TCB.made n = me
    · obtain ⟨rfl, rfl⟩ := hme
      have := (B.going i' n).1 hg
      simp [this]
    · have := B.going i' n
      simpa [hme] using this
  · intro i' n
    rw [hA, h₃, h₄]
    exact B.asking i' n

theorem granted_go (B : Balanced count s) (S : Sound reaper s line place) {i : I} {me : TCB C N}
    (hk : s.callback c = some (.granted i me)) :
    Balanced count (((s.schedule me).emit [.schedules i me]).setCallback c none) := by
  have hcb : ∀ d i' t', (((s.schedule me).emit [.schedules i me]).setCallback c none).callback d =
      some (.granted i' t') ↔ s.callback d = some (.granted i' t') ∧ d ≠ c := by
    intro d i' t'
    by_cases hd : d = c
    · subst hd; simp [State.setCallback]
    · simp [State.setCallback, State.emit, State.schedule, hd]
  refine B.let_go (Or.inl ⟨c, hk⟩) rfl rfl (contents_schedule s me) ?_ ?_
  · intro i' n
    constructor
    · intro h
      refine ⟨?_, ?_⟩
      · rcases h with ⟨d, h⟩ | ⟨u, h⟩
        · exact Or.inl ⟨d, ((hcb d _ _).mp h).1⟩
        · exact Or.inr ⟨u, h⟩
      · intro hme
        obtain ⟨rfl, rfl⟩ := hme
        have hp : s.slot (.callback c) = some n := Sound.slot_callback hk
        rcases h with ⟨d, h⟩ | ⟨u, h⟩
        · obtain ⟨h, hd⟩ := (hcb d _ _).mp h
          have h₂ : s.slot (.callback d) = some n := Sound.slot_callback h
          have := S.places.placed.slot_unique hp h₂
          injection this with this
          exact hd this.symm
        · replace h : s.call u = .up i' (.made n) := h
          have h₂ : s.slot (.call u) = some n := by simp [State.slot, h, Call.held]
          have := S.places.placed.slot_unique hp h₂
          cases this
    · intro h
      rcases h.1 with ⟨d, hd⟩ | ⟨u, hu⟩
      · refine Or.inl ⟨d, (hcb d _ _).mpr ⟨hd, ?_⟩⟩
        intro hdc
        subst hdc
        rw [hk] at hd
        injection hd with hd
        injection hd with h₁ h₂
        exact h.2 ⟨h₁.symm, h₂.symm⟩
      · exact Or.inr ⟨u, hu⟩
  · intro i' n
    refine asking_congr Iff.rfl (fun _ => Iff.rfl) ?_ (contents_schedule s me i')
    intro d
    by_cases hd : d = c
    · subst hd; simp [State.setCallback, hk]
    · simp [State.setCallback, State.emit, State.schedule, hd]

/-- The second test of `down()` fails: the thread waits in the queue. -/
theorem down_waits (B : Balanced count s) (S : Sound reaper s line place) {i : I} {n : N}
    (hk : s.callback c = some (.run (.down i) (.made n))) (hcount : ¬ 0 < s.count i) :
    Balanced count ((s.add (.waiting i) (.made n)).setCallback c none) := by
  have hb : s.block (.made n) = .away (.down i) := S.kept.callback c _ n hk rfl
  have hcall : s.call (.made n) = .down i := S.control.fits _ (.down i) (by rw [hb]; rfl)
  have hp : s.slot (.callback c) = some n := Sound.slot_callback hk
  have hself : (s.queues.add (.waiting i) (TCB.made n)).contents (.waiting i) =
      s.queues.contents (.waiting i) ++ [.made n] := by
    have hf := S.places.threaded.fifo (.waiting i)
    simp [Queues.contents, Queues.add, hf]
  have hother : ∀ i', i' ≠ i → (s.queues.add (.waiting i) (TCB.made n)).contents (.waiting i') =
      s.queues.contents (.waiting i') := by
    intro i' hi
    exact Queues.contents_add_ne _ (by simpa using hi)
  -- nothing is granted, and the thread asks in the queue as it asked in the callback
  have hG : ∀ i' m, Granted ((s.add (.waiting i) (.made n)).setCallback c none) i' (.made m) ↔
      Granted s i' (.made m) := by
    intro i' m
    apply granted_congr
    · intro d i'' t'
      by_cases hd : d = c
      · subst hd; simp [State.setCallback, hk]
      · simp [State.setCallback, State.add, hd]
    · exact fun _ _ _ => Iff.rfl
  have hA : ∀ i' m, Asking ((s.add (.waiting i) (.made n)).setCallback c none) i' (.made m) ↔
      Asking s i' (.made m) := by
    intro i' m
    by_cases hme : i' = i ∧ m = n
    · obtain ⟨rfl, rfl⟩ := hme
      refine iff_of_true ⟨hcall, Or.inr (Or.inr ?_)⟩ ⟨hcall, Or.inr (Or.inl ⟨c, hk⟩)⟩
      show TCB.made m ∈ (s.queues.add _ _).contents _
      rw [hself]
      simp
    · unfold Asking
      refine and_congr_right fun _ => or_congr Iff.rfl (or_congr (exists_congr fun d => ?_) ?_)
      · by_cases hd : d = c
        · subst hd
          rw [hk]
          simp only [State.setCallback, Function.update_self]
          refine iff_of_false (by simp) ?_
          intro h
          injection h with h
          injection h with h₁ h₂
          injection h₁ with h₁
          injection h₂ with h₂
          exact hme ⟨h₁.symm, h₂.symm⟩
        · simp [State.setCallback, State.add, hd]
      · show TCB.made m ∈ (s.queues.add _ _).contents _ ↔ _
        by_cases hi : i' = i
        · subst hi
          rw [hself]
          have hmn : m ≠ n := fun h => hme ⟨rfl, h⟩
          simp [hmn]
        · rw [hother i' hi]
  refine ⟨B.balance, ?_, ?_, ?_⟩
  · intro i' h
    have hi : i' ≠ i := by
      intro hi
      subst hi
      exact hcount h
    show (s.queues.add _ _).contents _ = _
    rw [hother i' hi]
    exact B.empty i' h
  · intro i' m
    rw [hG]
    exact B.going i' m
  · intro i' m
    rw [hA]
    exact B.asking i' m

/-- A thread that asks is granted, and is in the hand of who has granted it. -/
theorem grant (B : Balanced count s) {i : I} {n : N} (hask : Asking s i (.made n))
    (hgr : ¬ Granted s i (.made n))
    (hbal : ∀ i', ∃ wraps, s'.log.countP (Event.grantsOn i') + (s'.count i').toNat + 2 ^ 64 * wraps =
      (count i').toNat + s'.log.countP (Event.upsOn i'))
    (hempty : ∀ i', 0 < s'.count i' → s'.queues.contents (.waiting i') = [])
    (hto : ∀ i' t, s'.log.countP (Event.grantsTo i' t) =
      s.log.countP (Event.grantsTo i' t) + if i' = i ∧ t = .made n then 1 else 0)
    (hgo : ∀ i' t, s'.log.countP (Event.letsGo i' t) = s.log.countP (Event.letsGo i' t))
    (hby : ∀ i' t, s'.log.countP (Event.asksBy i' t) = s.log.countP (Event.asksBy i' t))
    (hG : ∀ i' m, Granted s' i' (.made m) ↔ Granted s i' (.made m) ∨ (i' = i ∧ m = n))
    (hA : ∀ i' m, Asking s' i' (.made m) ↔ Asking s i' (.made m) ∧ ¬ (i' = i ∧ m = n)) :
    Balanced count s' := by
  refine ⟨hbal, hempty, ?_, ?_⟩
  · intro i' m
    rw [hG, hto, hgo]
    by_cases h : i' = i ∧ m = n
    · obtain ⟨rfl, rfl⟩ := h
      have := (B.going i' m).2 hgr
      simp [this]
    · have h' : ¬ (i' = i ∧ TCB.made m = (TCB.made n : TCB C N)) := by simpa using h
      simpa [h, h'] using B.going i' m
  · intro i' m
    rw [hA, hto, hby]
    by_cases h : i' = i ∧ m = n
    · obtain ⟨rfl, rfl⟩ := h
      have := (B.asking i' m).1 hask
      simp [this]
    · have h' : ¬ (i' = i ∧ TCB.made m = (TCB.made n : TCB C N)) := by simpa using h
      simpa [h, h'] using B.asking i' m

theorem count_sub_one {x : BitVec 64} (h : 0 < x) : (x - 1).toNat + 1 = x.toNat := by
  have hx : 0 < x.toNat := by simpa [BitVec.lt_def] using h
  have hlt := x.isLt
  have h1 : (1 : BitVec 64).toNat = 1 := rfl
  rw [BitVec.toNat_sub, h1]
  omega

/-- The second test of `down()` succeeds. -/
theorem down_granted (B : Balanced count s) (S : Sound reaper s line place) {i : I} {n : N}
    (hk : s.callback c = some (.run (.down i) (.made n))) (hcount : 0 < s.count i) :
    Balanced count (((s.setCount i (s.count i - 1)).setCallback c (some (.granted i (.made n)))).emit
      [.grants i (.made n)]) := by
  have hb : s.block (.made n) = .away (.down i) := S.kept.callback c _ n hk rfl
  have hcall : s.call (.made n) = .down i := S.control.fits _ (.down i) (by rw [hb]; rfl)
  -- it is in the hand of this callback, and so in no queue and in no other hand
  have hp : s.slot (.callback c) = some n := Sound.slot_callback hk
  refine B.grant ⟨hcall, Or.inr (Or.inl ⟨c, hk⟩)⟩
    (not_granted S.places hp ?_ (by simp)) ?_ ?_ ?_ ?_ ?_ ?_ ?_
  · intro d hd
    injection hd with hd
    subst hd
    rw [hk]
    simp
  -- the count goes down by one and the grants go up
  · intro i'
    obtain ⟨w, hw⟩ := B.balance i'
    refine ⟨w, ?_⟩
    by_cases hi : i' = i
    · subst hi
      have hsub := count_sub_one hcount
      simp only [State.emit, State.setCallback, State.setCount, Function.update_self,
        List.countP_append, List.countP_singleton, Event.grantsOn, Event.upsOn, decide_true, if_true,
        Bool.false_eq_true, if_false]
      omega
    · simpa [State.emit, State.setCallback, State.setCount, hi, Event.grantsOn, Event.upsOn,
        Ne.symm hi] using hw
  · intro i' h
    by_cases hi : i' = i
    · subst hi
      exact B.empty i' hcount
    · refine B.empty i' ?_
      simpa [State.emit, State.setCallback, State.setCount, hi] using h
  · intro i' t
    by_cases h : i' = i ∧ t = .made n
    · obtain ⟨rfl, rfl⟩ := h
      simp [State.emit, State.setCallback, State.setCount, Event.grantsTo]
    · have h' : ¬ (i = i' ∧ TCB.made n = t) := fun h' => h ⟨h'.1.symm, h'.2.symm⟩
      simp [State.emit, State.setCallback, State.setCount, Event.grantsTo, h, h']
  · intro i' t
    simp [State.emit, State.setCallback, State.setCount, Event.letsGo]
  · intro i' t
    simp [State.emit, State.setCallback, State.setCount, Event.asksBy]
  -- granted: now also this one
  · intro i' m
    unfold Granted
    constructor
    · intro h
      rcases h with ⟨d, h⟩ | ⟨u, h⟩
      · by_cases hd : d = c
        · subst hd
          simp only [State.emit, State.setCallback, Function.update_self, Option.some.injEq,
            Callback.granted.injEq, TCB.made.injEq] at h
          exact Or.inr ⟨h.1.symm, h.2.symm⟩
        · simp only [State.emit, State.setCallback, State.setCount, Function.update_of_ne hd] at h
          exact Or.inl (Or.inl ⟨d, h⟩)
      · exact Or.inl (Or.inr ⟨u, h⟩)
    · intro h
      rcases h with (⟨d, h⟩ | ⟨u, h⟩) | ⟨rfl, rfl⟩
      · refine Or.inl ⟨d, ?_⟩
        have hd : d ≠ c := by
          intro hd
          subst hd
          rw [hk] at h
          cases h
        simpa [State.emit, State.setCallback, State.setCount, hd] using h
      · exact Or.inr ⟨u, h⟩
      · exact Or.inl ⟨c, by simp [State.emit, State.setCallback]⟩
  -- and it asks no more
  · intro i' m
    by_cases h : i' = i ∧ m = n
    · obtain ⟨rfl, rfl⟩ := h
      refine iff_of_false ?_ (fun h => h.2 ⟨rfl, rfl⟩)
      intro h
      rcases h.2 with h | ⟨d, h⟩ | h
      · exact h hb
      · by_cases hd : d = c
        · subst hd
          simp [State.emit, State.setCallback] at h
        · simp only [State.emit, State.setCallback, State.setCount, Function.update_of_ne hd] at h
          have h₂ : s.slot (.callback d) = some m := Sound.slot_callback h
          have := S.places.placed.slot_unique hp h₂
          injection this with this
          exact hd this.symm
      · exact S.places.placed.slot_not_line hp ((mem_contents S.places).mp h)
    · rw [and_iff_left h]
      refine asking_congr Iff.rfl (fun _ => Iff.rfl) ?_ rfl
      intro d
      by_cases hd : d = c
      · subst hd
        rw [hk]
        simp only [State.emit, State.setCallback, Function.update_self]
        refine iff_of_false (by simp) ?_
        intro hrun
        injection hrun with hrun
        injection hrun with h₁ h₂
        injection h₁ with h₁
        injection h₂ with h₂
        exact h ⟨h₁.symm, h₂.symm⟩
      · simp [State.emit, State.setCallback, State.setCount, hd]

theorem callbackStep (B : Balanced count s) (S : Sound reaper s line place)
    (S' : Sound reaper s' line' place') {k : Callback C N I J} (hk : s.callback c = some k)
    (h : s.callbackStep reaper c k = some s') : Balanced count s' := by
  cases k with
  | run f me =>
    cases f with
    | yield =>
      refine resume (r := s.schedule me) ?_ S S' h rfl rfl rfl
      exact B.callback_step hk rfl rfl rfl rfl ⟨[], by simp [State.setCallback, State.schedule], by simp⟩
        (contents_schedule s me) (by simp) (by simp)
    | stop =>
      cases me with
      | idle d =>
        simp only [State.callbackStep, TCB.isIdle_idle, if_true] at h
        refine resume (r := s) ?_ S S' h rfl rfl rfl
        exact B.callback_step hk rfl rfl rfl rfl ⟨[], by simp [State.setCallback], by simp⟩
          (fun _ => rfl) (by simp) (by simp)
      | made n =>
        simp only [State.callbackStep, TCB.isIdle_made, Bool.false_eq_true, if_false,
          State.tryLock] at h
        split at h
        · injection h with h
          subst h
          exact B.callback_step hk rfl rfl rfl rfl
            ⟨[], by simp [State.setCallback, State.add, State.setLock], by simp⟩
            (fun i => Queues.contents_add_ne _ (by simp)) (by simp) (by simp)
        · cases h
    | down i =>
      cases me with
      | idle d => simp [State.callbackStep, State.downAgain] at h
      | made n =>
        simp only [State.callbackStep, State.downAgain, TCB.isIdle_made, Bool.false_eq_true,
          if_false] at h
        split at h
        · rename_i hc
          injection h with h
          subst h
          exact B.down_granted S hk hc
        · rename_i hc
          exact (B.down_waits S hk hc).resume S S' h rfl rfl rfl
    | wait j e =>
      cases me with
      | idle d => simp [State.callbackStep, State.waitAgain] at h
      | made n =>
        simp only [State.callbackStep, State.waitAgain, TCB.isIdle_made, Bool.false_eq_true,
          if_false] at h
        split at h
        · cases h
        · split at h
          · cases h
          · split at h
            · refine resume ?_ S S' h rfl rfl rfl
              exact B.callback_step hk rfl rfl rfl rfl ⟨[.joins j (.made n)], rfl, by simp [Event.quiet]⟩
                (fun i => Queues.contents_add_ne _ (by simp)) (by simp) (by simp)
            · injection h with h
              subst h
              exact B.callback_step hk rfl rfl rfl rfl ⟨[], by simp [State.setCallback], by simp⟩
                (fun _ => rfl) (by simp) (by simp)
  | granted i me => exact (B.granted_go S hk).resume S S' h rfl rfl rfl
  | missed j me =>
    refine resume (r := s.schedule me) ?_ S S' h rfl rfl rfl
    exact B.callback_step hk rfl rfl rfl rfl ⟨[], by simp [State.setCallback, State.schedule], by simp⟩
      (contents_schedule s me) (by simp) (by simp)
  | notify =>
    rcases S.places.take (.queue reaper) with ⟨hl, hrem⟩ | ⟨n, l, qs, hl, hrem, T⟩
    all_goals
      simp only [State.callbackStep, State.remove, State.setEpoch, State.emit, hrem,
        Option.some.injEq] at h
      subst h
      exact B.callback_step hk rfl rfl rfl rfl ⟨[.notifies reaper 1], rfl, by simp [Event.quiet]⟩
        (fun i => contents_take hrem (by simp)) (by simp) (by simp)
  | rouse next =>
    injection h with h
    subst h
    exact B.callback_step hk rfl rfl rfl rfl ⟨[], by simp [State.setCallback, State.schedule], by simp⟩
      (contents_schedule s next) (by simp) (by simp)
  | unlock =>
    refine resume ?_ S S' h rfl rfl rfl
    exact B.callback_step hk rfl rfl rfl rfl ⟨[.notified reaper], rfl, by simp [Event.quiet]⟩
      (fun _ => rfl) (by simp) (by simp)

/-! ## Calls

A step of the code between `down()` and `block` changes the call of one thread. The only one that
concerns a semaphore is the last step of `up()`, which schedules the thread that its section has
taken out of the queue. -/

/-- The call changes, and neither is one of a semaphore. -/
theorem call_step (B : Balanced count s) {k k' : Call C N I J} (hk : s.call t = k)
    (hcall : s'.call = Function.update s.call t k') (hcb : s'.callback = s.callback)
    (hb : s'.block = s.block) (hcount : s'.count = s.count)
    (hlog : ∃ es, s'.log = s.log ++ es ∧ ∀ e ∈ es, e.quiet = true)
    (hq : ∀ i, s'.queues.contents (.waiting i) = s.queues.contents (.waiting i))
    (hold : ∀ i u, k ≠ .up i u ∧ k ≠ .down i) (hnew : ∀ i u, k' ≠ .up i u ∧ k' ≠ .down i) :
    Balanced count s' := by
  refine B.same hcount hlog hq ?_ ?_
  · intro i n
    apply granted_congr
    · intro d i' t'
      rw [hcb]
    · intro u i' t'
      rw [hcall]
      by_cases hu : u = t
      · subst hu
        rw [Function.update_self, hk]
        exact iff_of_false (hnew i' t').1 (hold i' t').1
      · rw [Function.update_of_ne hu]
  · intro i n
    refine asking_congr ?_ (fun _ => by rw [hb]) (by intro d; rw [hcb]) (hq i)
    rw [hcall]
    by_cases hu : TCB.made n = t
    · subst hu
      rw [Function.update_self, hk]
      exact iff_of_false (hnew i (.made n)).2 (hold i (.made n)).2
    · rw [Function.update_of_ne hu]

/-- `up()` schedules what it has taken. -/
theorem up_go (B : Balanced count s) (S : Sound reaper s line place) {i : I} {next : TCB C N}
    (hk : s.call t = .up i next) :
    Balanced count (((s.schedule next).emit [.schedules i next]).setCall t .none) := by
  have hcall : ∀ u i' t', (((s.schedule next).emit [.schedules i next]).setCall t .none).call u =
      .up i' t' ↔ s.call u = .up i' t' ∧ u ≠ t := by
    intro u i' t'
    by_cases hu : u = t
    · subst hu; simp [State.setCall]
    · simp [State.setCall, State.emit, State.schedule, hu]
  refine B.let_go (Or.inr ⟨t, hk⟩) rfl rfl (contents_schedule s next) ?_ ?_
  · intro i' n
    constructor
    · intro h
      refine ⟨?_, ?_⟩
      · rcases h with ⟨d, h⟩ | ⟨u, h⟩
        · exact Or.inl ⟨d, h⟩
        · exact Or.inr ⟨u, ((hcall u _ _).mp h).1⟩
      · intro hme
        obtain ⟨rfl, rfl⟩ := hme
        have hp : s.slot (.call t) = some n := by simp [State.slot, hk, Call.held]
        rcases h with ⟨d, h⟩ | ⟨u, h⟩
        · replace h : s.callback d = some (.granted i' (.made n)) := h
          have h₂ : s.slot (.callback d) = some n := Sound.slot_callback h
          have := S.places.placed.slot_unique hp h₂
          cases this
        · obtain ⟨h, hu⟩ := (hcall u _ _).mp h
          have h₂ : s.slot (.call u) = some n := by simp [State.slot, h, Call.held]
          have := S.places.placed.slot_unique hp h₂
          injection this with this
          exact hu this.symm
    · intro h
      rcases h.1 with ⟨d, hd⟩ | ⟨u, hu⟩
      · exact Or.inl ⟨d, hd⟩
      · refine Or.inr ⟨u, (hcall u _ _).mpr ⟨hu, ?_⟩⟩
        intro hut
        subst hut
        rw [hk] at hu
        injection hu with h₁ h₂
        exact h.2 ⟨h₁.symm, h₂.symm⟩
  · intro i' n
    refine asking_congr ?_ (fun _ => Iff.rfl) (fun _ => Iff.rfl) (contents_schedule s next i')
    by_cases hu : TCB.made n = t
    · subst hu; simp [State.setCall, hk]
    · simp [State.setCall, State.emit, State.schedule, hu]

theorem callStep (B : Balanced count s) (S : Sound reaper s line place)
    (hr : s.running c = some t) (h : s.callStep c t (s.call t) = some s') : Balanced count s' := by
  cases hk : s.call t with
  | none => rw [hk] at h; cases h
  | creating n =>
    rw [hk] at h
    injection h with h
    subst h
    exact B.call_step hk rfl rfl rfl rfl ⟨[], by simp [State.setCall, State.schedule], by simp⟩
      (contents_schedule s (.made n)) (by simp) (by simp)
  | deleting it =>
    rw [hk] at h
    cases it with
    | idle d => cases h
    | made n =>
      injection h with h
      subst h
      exact B.call_step hk rfl rfl rfl rfl ⟨[], by simp [State.setCall, State.setLive], by simp⟩
        (fun _ => rfl) (by simp) (by simp)
  | stopping =>
    rw [hk] at h
    injection h with h
    subst h
    exact B.enterBlock S hr _
  | down i =>
    rw [hk] at h
    injection h with h
    subst h
    exact B.enterBlock S hr _
  | up i next =>
    rw [hk] at h
    injection h with h
    subst h
    exact B.up_go S hk
  | wait j e =>
    rw [hk] at h
    injection h with h
    subst h
    exact B.enterBlock S hr _
  | relock j =>
    rw [hk] at h
    simp only [State.callStep, State.tryLock] at h
    split at h
    · injection h with h
      subst h
      exact B.call_step hk rfl rfl rfl rfl ⟨[], by simp [State.setCall, State.setLock], by simp⟩
        (fun _ => rfl) (by simp) (by simp)
    · cases h
  | notify j limit i =>
    rw [hk] at h
    have hdone : Balanced count ((s.emit [.notified j]).setCall t .none) :=
      B.call_step hk rfl rfl rfl rfl ⟨[.notified j], rfl, by simp [Event.quiet]⟩ (fun _ => rfl)
        (by simp) (by simp)
    by_cases hi : i < limit
    · rcases S.places.take (.queue j) with ⟨hl, hrem⟩ | ⟨n, l, qs, hl, hrem, T⟩
      · simp only [State.callStep, hi, if_true, State.remove, hrem, Option.some.injEq] at h
        subst h
        exact hdone
      · simp only [State.callStep, hi, if_true, State.remove, hrem, Option.some.injEq] at h
        subst h
        exact B.call_step hk rfl rfl rfl rfl ⟨[], by simp [State.setCall], by simp⟩
          (fun i => contents_take hrem (by simp)) (by simp) (by simp)
    · simp only [State.callStep, hi, if_false, Option.some.injEq] at h
      subst h
      exact hdone
  | rouse j limit i next =>
    rw [hk] at h
    injection h with h
    subst h
    exact B.call_step hk rfl rfl rfl rfl ⟨[], by simp [State.setCall, State.schedule], by simp⟩
      (contents_schedule s next) (by simp) (by simp)

theorem go (B : Balanced count s) (S : Sound reaper s line place) (S' : Sound reaper s' line' place')
    (h : s.go reaper c = some s') : Balanced count s' := by
  unfold State.go at h
  cases hc : s.callback c with
  | some k =>
    rw [hc] at h
    exact B.callbackStep S S' hc h
  | none =>
    rw [hc] at h
    dsimp only at h
    cases hb : s.block (s.stack c) with
    | outside =>
      rw [hb] at h
      exact B.callStep S (running_iff.mpr ⟨hc, hb, rfl⟩) h
    | choosing f =>
      rw [hb] at h
      exact B.choose S hb h
    | chosen f next_tcb =>
      rw [hb] at h
      injection h with h
      subst h
      exact B.activate hb
    | switching f next_tcb =>
      rw [hb] at h
      injection h with h
      subst h
      exact B.contextSwitch S hc hb
    | away f =>
      rw [hb] at h
      cases h

/-! ## What the code of a thread can call

The sections of `down()` and `up()`, and whatever else a thread may begin. `up()` on a semaphore
at which nobody waits adds one to a 64-bit counter without looking at it (`up_counts`); this is
the place at which the equation becomes one modulo 2^64, and the wraps are counted there.

`Balanced.step` collects all of this: the kinds of labels are the cases, and each case is a lemma
of the sections above. -/

theorem create (B : Balanced count s) (S : Sound reaper s line place) {n : N}
    (hf : s.free c = some t) (h : s.create t n = some s') : Balanced count s' := by
  obtain ⟨hr, hk⟩ := free_iff.mp hf
  unfold State.create at h
  split at h
  · cases h
  rename_i hv
  injection h with h
  subst h
  have hdead := S.kept.dead n (by simpa using hv)
  -- a thread that is not there calls nothing
  have B₁ : Balanced count ((((s.setLive n true).setPreempt (.made n) false).setBlock (.made n)
      .outside).setCall (.made n) .none) := by
    have hcall : ∀ i u, s.call (.made n) ≠ .up i u ∧ s.call (.made n) ≠ .down i := by
      intro i u
      rcases hdead with hd | hd <;> simp [hd]
    refine B.same rfl ⟨[], by simp [State.setCall, State.setBlock, State.setPreempt, State.setLive],
      by simp⟩ (fun _ => rfl) ?_ ?_
    · intro i m
      apply granted_congr
      · exact fun _ _ _ => Iff.rfl
      · intro u i' t'
        by_cases hu : u = .made n
        · subst hu
          simp [State.setCall, (hcall i' t').1]
        · simp [State.setCall, State.setBlock, State.setPreempt, State.setLive, hu]
    · intro i m
      by_cases hm : m = n
      · subst hm
        refine iff_of_false ?_ ?_
        · intro ha
          have := ha.1
          simp [State.setCall] at this
        · intro ha
          exact (hcall i (.made m)).2 ha.1
      · have hm' : (TCB.made m : TCB C N) ≠ .made n := by simpa using hm
        refine asking_congr ?_ ?_ (fun _ => Iff.rfl) rfl
        · simp [State.setCall, State.setBlock, State.setPreempt, State.setLive, hm]
        · intro _
          simp [State.setCall, State.setBlock, State.setPreempt, State.setLive, hm]
  by_cases ht : t = .made n
  · subst ht
    exact B₁.call_step (k := .none) (by simp [State.setCall]) rfl rfl rfl rfl
      ⟨[], by simp [State.setCall], by simp⟩ (fun _ => rfl) (by simp) (by simp)
  · exact B₁.call_step (k := .none)
      (by simp [State.setCall, State.setBlock, State.setPreempt, State.setLive, ht, hk]) rfl rfl rfl rfl
      ⟨[], by simp [State.setCall], by simp⟩ (fun _ => rfl) (by simp) (by simp)

/-- The first test of `down()` succeeds. -/
theorem down_returns (B : Balanced count s) {i : I} (hcount : 0 < s.count i) :
    Balanced count ((s.setCount i (s.count i - 1)).emit [.asks i t, .grants i t, .returns i t]) := by
  have hother : ∀ i' u, ¬ (i' = i ∧ u = t) → ¬ (i = i' ∧ t = u) :=
    fun _ _ h ⟨h₁, h₂⟩ => h ⟨h₁.symm, h₂.symm⟩
  refine ⟨?_, ?_, ?_, ?_⟩
  · intro i'
    obtain ⟨w, hw⟩ := B.balance i'
    refine ⟨w, ?_⟩
    by_cases hi : i' = i
    · subst hi
      have hsub := count_sub_one hcount
      simp only [State.emit, State.setCount, Function.update_self, List.countP_append,
        List.countP_cons, List.countP_nil, Event.grantsOn, Event.upsOn, decide_true, if_true,
        Bool.false_eq_true, if_false]
      omega
    · simpa [State.emit, State.setCount, hi, List.countP_append, List.countP_cons, Event.grantsOn,
        Event.upsOn, Ne.symm hi] using hw
  · intro i' h
    by_cases hi : i' = i
    · subst hi
      exact B.empty i' hcount
    · refine B.empty i' ?_
      simpa [State.emit, State.setCount, hi] using h
  · intro i' n
    have hg : Granted ((s.setCount i (s.count i - 1)).emit [.asks i t, .grants i t, .returns i t]) i'
        (.made n) ↔ Granted s i' (.made n) := Iff.rfl
    rw [hg]
    by_cases h : i' = i ∧ TCB.made n = t
    · obtain ⟨rfl, rfl⟩ := h
      simpa [State.emit, State.setCount, List.countP_append, List.countP_cons, Event.grantsTo,
        Event.letsGo] using B.going i' n
    · simpa [State.emit, State.setCount, List.countP_append, List.countP_cons, Event.grantsTo,
        Event.letsGo, hother _ _ h] using B.going i' n
  · intro i' n
    have ha : Asking ((s.setCount i (s.count i - 1)).emit [.asks i t, .grants i t, .returns i t]) i'
        (.made n) ↔ Asking s i' (.made n) := Iff.rfl
    rw [ha]
    by_cases h : i' = i ∧ TCB.made n = t
    · obtain ⟨rfl, rfl⟩ := h
      simpa [State.emit, State.setCount, List.countP_append, List.countP_cons, Event.grantsTo,
        Event.asksBy] using B.asking i' n
    · simpa [State.emit, State.setCount, List.countP_append, List.countP_cons, Event.grantsTo,
        Event.asksBy, hother _ _ h] using B.asking i' n

/-- The first test of `down()` fails: the thread asks from now on. -/
theorem down_blocks (B : Balanced count s) {i : I} (hf : s.free c = some t) :
    Balanced count ((s.emit [.asks i t]).setCall t (.down i)) := by
  obtain ⟨hr, hk⟩ := free_iff.mp hf
  obtain ⟨-, hb, rfl⟩ := running_iff.mp hr
  have hG : ∀ i' n, Granted ((s.emit [.asks i (s.stack c)]).setCall (s.stack c) (.down i)) i'
      (.made n) ↔ Granted s i' (.made n) := by
    intro i' n
    apply granted_congr
    · exact fun _ _ _ => Iff.rfl
    · intro u i'' t'
      by_cases hu : u = s.stack c
      · subst hu; simp [State.setCall, hk]
      · simp [State.setCall, State.emit, hu]
  have hA : ∀ i' n, Asking ((s.emit [.asks i (s.stack c)]).setCall (s.stack c) (.down i)) i'
      (.made n) ↔ Asking s i' (.made n) ∨ (i' = i ∧ TCB.made n = s.stack c) := by
    intro i' n
    by_cases hn : TCB.made n = s.stack c
    · have hno : ¬ Asking s i' (.made n) := by
        intro h
        have := h.1
        rw [hn, hk] at this
        cases this
      constructor
      · intro h
        have := h.1
        rw [hn] at this
        simp only [State.setCall, Function.update_self, Call.down.injEq] at this
        exact Or.inr ⟨this.symm, hn⟩
      · intro h
        obtain ⟨rfl, -⟩ := h.resolve_left hno
        rw [hn]
        refine ⟨by simp [State.setCall], Or.inl ?_⟩
        show s.block _ ≠ _
        rw [hb]
        simp
    · have : ¬ (i' = i ∧ TCB.made n = s.stack c) := fun h => hn h.2
      rw [or_iff_left this]
      refine asking_congr ?_ (fun _ => Iff.rfl) (fun _ => Iff.rfl) rfl
      simp [State.setCall, State.emit, hn]
  refine ⟨?_, B.empty, ?_, ?_⟩
  · intro i'
    simpa [State.emit, State.setCall, List.countP_append, Event.grantsOn, Event.upsOn]
      using B.balance i'
  · intro i' n
    rw [hG]
    simpa [State.emit, State.setCall, List.countP_append, Event.grantsTo, Event.letsGo]
      using B.going i' n
  · intro i' n
    rw [hA]
    by_cases h : i' = i ∧ TCB.made n = s.stack c
    · obtain ⟨rfl, hn⟩ := h
      have hno : ¬ Asking s i' (.made n) := by
        intro h
        have := h.1
        rw [hn, hk] at this
        cases this
      have := (B.asking i' n).2 hno
      rw [hn] at this
      simp [State.emit, State.setCall, List.countP_append, Event.grantsTo, Event.asksBy, hn, this]
    · have h' : ¬ (i = i' ∧ s.stack c = TCB.made n) := fun h' => h ⟨h'.1.symm, h'.2.symm⟩
      simpa [State.emit, State.setCall, List.countP_append, Event.grantsTo, Event.asksBy, h, h']
        using B.asking i' n

/-- Nobody waits: `up()` counts, and the counter may wrap. -/
theorem up_counts (B : Balanced count s) {i : I} (hl : s.queues.contents (.waiting i) = []) :
    Balanced count ((s.setCount i (s.count i + 1)).emit [.ups i]) := by
  refine ⟨?_, ?_, ?_, ?_⟩
  · intro i'
    obtain ⟨w, hw⟩ := B.balance i'
    by_cases hi : i' = i
    · subst hi
      have h1 : (1 : BitVec 64).toNat = 1 := rfl
      have hlt := (s.count i').isLt
      refine ⟨w + ((s.count i').toNat + 1) / 2 ^ 64, ?_⟩
      have hadd : (s.count i' + 1).toNat + 2 ^ 64 * (((s.count i').toNat + 1) / 2 ^ 64) =
          (s.count i').toNat + 1 := by
        rw [BitVec.toNat_add, h1]
        exact Nat.mod_add_div _ _
      simp only [State.emit, State.setCount, Function.update_self, List.countP_append,
        List.countP_singleton, Event.grantsOn, Event.upsOn, decide_true, if_true,
        Bool.false_eq_true, if_false, Nat.mul_add]
      omega
    · exact ⟨w, by simpa [State.emit, State.setCount, hi, List.countP_append, Event.grantsOn,
        Event.upsOn, Ne.symm hi] using hw⟩
  · intro i' h
    by_cases hi : i' = i
    · subst hi
      exact hl
    · refine B.empty i' ?_
      simpa [State.emit, State.setCount, hi] using h
  · intro i' n
    have hg : Granted ((s.setCount i (s.count i + 1)).emit [.ups i]) i' (.made n) ↔
        Granted s i' (.made n) := Iff.rfl
    rw [hg]
    simpa [State.emit, State.setCount, List.countP_append, Event.grantsTo, Event.letsGo]
      using B.going i' n
  · intro i' n
    have ha : Asking ((s.setCount i (s.count i + 1)).emit [.ups i]) i' (.made n) ↔
        Asking s i' (.made n) := Iff.rfl
    rw [ha]
    simpa [State.emit, State.setCount, List.countP_append, Event.grantsTo, Event.asksBy]
      using B.asking i' n

/-- The first thread that waits is granted. -/
theorem up_takes (B : Balanced count s) (S : Sound reaper s line place) {i : I} {n : N} {l : List N}
    {qs : Queues (QueueId I J) (TCB C N)} (hk : s.call t = .none)
    (hl : line (.waiting i) = n :: l) (hrem : s.queues.remove (.waiting i) = (some (.made n), qs))
    (T : Threaded qs fun r => (Function.update line (.waiting i) l r).map TCB.made) :
    Balanced count ((({ s with queues := qs } : State C N I J).emit [.ups i, .takes i (.made n)]).setCall
      t (.up i (.made n))) := by
  have hmem : n ∈ line (.waiting i) := by rw [hl]; exact List.mem_cons_self
  have hb : s.block (.made n) = .away (.down i) := S.kept.queue (.waiting i) n hmem
  have hcall : s.call (.made n) = .down i := S.control.fits _ (.down i) (by rw [hb]; rfl)
  have hask : Asking s i (.made n) := ⟨hcall, Or.inr (Or.inr ((mem_contents S.places).mpr hmem))⟩
  -- where somebody waits the count is 0, so the two sides of the balance go up together
  have hzero : ¬ 0 < s.count i := by
    intro h
    have := B.empty i h
    rw [S.places.threaded.contents_eq, hl] at this
    cases this
  have hself : qs.contents (.waiting i) = l.map TCB.made := by
    rw [T.contents_eq]
    simp
  -- it is in the queue once, so nobody asks twice
  have hnl : n ∉ l := by
    have := S.places.placed.nodup (.waiting i)
    rw [hl] at this
    exact (List.nodup_cons.mp this).1
  refine B.grant hask (not_granted_line S.places hmem) ?_ ?_ ?_ ?_ ?_ ?_ ?_
  · intro i'
    obtain ⟨w, hw⟩ := B.balance i'
    refine ⟨w, ?_⟩
    by_cases hi : i' = i
    · subst hi
      simp only [State.emit, State.setCall, List.countP_append, List.countP_cons, List.countP_nil,
        Event.grantsOn, Event.upsOn, decide_true, if_true, Bool.false_eq_true, if_false]
      omega
    · simpa [State.emit, State.setCall, List.countP_append, List.countP_cons, Event.grantsOn,
        Event.upsOn, Ne.symm hi] using hw
  · intro i' h
    by_cases hi : i' = i
    · subst hi
      exact absurd h hzero
    · show qs.contents _ = _
      rw [contents_take hrem (by simpa using hi)]
      exact B.empty i' h
  · intro i' u
    by_cases h : i' = i ∧ u = .made n
    · obtain ⟨rfl, rfl⟩ := h
      simp [State.emit, State.setCall, List.countP_append, Event.grantsTo]
    · have h' : ¬ (i = i' ∧ TCB.made n = u) := fun h' => h ⟨h'.1.symm, h'.2.symm⟩
      simp [State.emit, State.setCall, List.countP_append, Event.grantsTo, h, h']
  · intro i' u
    simp [State.emit, State.setCall, List.countP_append, Event.letsGo]
  · intro i' u
    simp [State.emit, State.setCall, List.countP_append, Event.asksBy]
  -- granted from now on is this thread, in the hand of the caller, and whoever was
  · intro i' m
    unfold Granted
    constructor
    · intro h
      rcases h with ⟨d, h⟩ | ⟨u, h⟩
      · exact Or.inl (Or.inl ⟨d, h⟩)
      · by_cases hu : u = t
        · subst hu
          simp only [State.setCall, Function.update_self, Call.up.injEq, TCB.made.injEq] at h
          exact Or.inr ⟨h.1.symm, h.2.symm⟩
        · simp only [State.setCall, State.emit, Function.update_of_ne hu] at h
          exact Or.inl (Or.inr ⟨u, h⟩)
    · intro h
      rcases h with (⟨d, h⟩ | ⟨u, h⟩) | ⟨rfl, rfl⟩
      · exact Or.inl ⟨d, h⟩
      · have hu : u ≠ t := by
          intro hu
          subst hu
          rw [hk] at h
          cases h
        exact Or.inr ⟨u, by simpa [State.setCall, State.emit, hu] using h⟩
      · exact Or.inr ⟨t, by simp [State.setCall]⟩
  -- and it asks no more
  · intro i' m
    have hcm : ∀ k : I, (((({ s with queues := qs } : State C N I J).emit
        [.ups i, .takes i (.made n)]).setCall t (.up i (.made n))).call (.made m) = .down k ↔
        s.call (.made m) = .down k) := by
      intro k
      by_cases hm : TCB.made m = t
      · rw [hm]
        simp [State.setCall, hk]
      · simp [State.setCall, State.emit, hm]
    by_cases h : i' = i ∧ m = n
    · obtain ⟨rfl, rfl⟩ := h
      refine iff_of_false ?_ (fun h => h.2 ⟨rfl, rfl⟩)
      intro h
      rcases h.2 with h | ⟨d, h⟩ | h
      · exact h hb
      · replace h : s.callback d = some (.run (.down i') (.made m)) := h
        have hd : s.slot (.callback d) = some m := Sound.slot_callback h
        exact S.places.placed.slot_not_line hd hmem
      · replace h : TCB.made m ∈ qs.contents (.waiting i') := h
        rw [hself] at h
        exact hnl (by simpa using h)
    · rw [and_iff_left h]
      unfold Asking
      rw [hcm]
      refine and_congr_right fun _ => or_congr Iff.rfl (or_congr Iff.rfl ?_)
      show TCB.made m ∈ qs.contents _ ↔ _
      by_cases hi : i' = i
      · subst hi
        have hmn : m ≠ n := fun h' => h ⟨rfl, h'⟩
        rw [hself, S.places.threaded.contents_eq, hl]
        simp [hmn]
      · rw [contents_take hrem (by simpa using hi)]

theorem up (B : Balanced count s) (S : Sound reaper s line place) {i : I}
    (hf : s.free c = some t) : Balanced count (s.up t i) := by
  obtain ⟨-, hk⟩ := free_iff.mp hf
  rcases S.places.take (.waiting i) with ⟨hl, hrem⟩ | ⟨n, l, qs, hl, hrem, T⟩
  · simp only [State.up, State.remove, hrem]
    refine B.up_counts ?_
    rw [S.places.threaded.contents_eq, hl]
    rfl
  · simp only [State.up, State.remove, hrem]
    exact B.up_takes S hk hl hrem T

theorem reap (B : Balanced count s) (S : Sound reaper s line place) (hf : s.free c = some t) :
    Balanced count (s.reap t) := by
  obtain ⟨-, hk⟩ := free_iff.mp hf
  rcases S.places.take .zombies with ⟨hl, hrem⟩ | ⟨n, l, qs, hl, hrem, T⟩
  · simp only [State.reap, State.remove, hrem]
    exact B
  · simp only [State.reap, State.remove, hrem]
    exact B.call_step hk rfl rfl rfl rfl ⟨[], by simp [State.setCall], by simp⟩
      (fun i => contents_take hrem (by simp)) (by simp) (by simp)

/-- A call that has nothing to do with semaphores begins. -/
theorem begin_call (B : Balanced count s) (hf : s.free c = some t) {k : Call C N I J}
    (hcall : s'.call = Function.update s.call t k) (hcb : s'.callback = s.callback)
    (hb : s'.block = s.block) (hcount : s'.count = s.count)
    (hlog : ∃ es, s'.log = s.log ++ es ∧ ∀ e ∈ es, e.quiet = true) (hq : s'.queues = s.queues)
    (hnew : ∀ i u, k ≠ .up i u ∧ k ≠ .down i) : Balanced count s' := by
  obtain ⟨-, hk⟩ := free_iff.mp hf
  exact B.call_step hk hcall hcb hb hcount hlog (fun i => by rw [hq]) (by simp) hnew

/-- A lock changes hands. -/
theorem setLock (B : Balanced count s) (j : J) (o : Option (Holder C N)) :
    Balanced count (s.setLock j o) :=
  B.same rfl ⟨[], by simp [State.setLock], by simp⟩ (fun _ => rfl) (fun _ _ => Iff.rfl)
    fun _ _ => Iff.rfl

theorem timer (B : Balanced count s) (S : Sound reaper s line place) (h : s.timer c = some s') :
    Balanced count s' := by
  rcases S.timer_cases h with rfl | ⟨hr, rfl⟩
  · exact B
  · exact B.enterBlock S hr .yield

/-- Every step keeps the books. -/
theorem step (B : Balanced count s) (h : Ok reaper s) {l : Label C N I J}
    (hs : step reaper s l = some s') : Balanced count s' := by
  obtain ⟨line', place', S'⟩ := h.step hs
  obtain ⟨line, place, S⟩ := h
  cases l with
  | go c => exact B.go S S' hs
  | timer c => exact B.timer S hs
  | create c n =>
    obtain ⟨t, hf, h⟩ := Option.bind_eq_some_iff.mp hs
    exact B.create S hf h
  | reap c =>
    obtain ⟨t, hf, rfl⟩ := Option.map_eq_some_iff.mp hs
    exact B.reap S hf
  | yield c =>
    obtain ⟨t, hf, rfl⟩ := Option.map_eq_some_iff.mp hs
    exact B.enterBlock S (free_iff.mp hf).1 .yield
  | stop c =>
    obtain ⟨t, hf, rfl⟩ := Option.map_eq_some_iff.mp hs
    exact B.begin_call hf rfl rfl rfl rfl ⟨[], by simp [State.setCall], by simp⟩ rfl (by simp)
  | down c i =>
    obtain ⟨t, hf, rfl⟩ := Option.map_eq_some_iff.mp hs
    unfold State.down
    split
    · rename_i hcount
      exact B.down_returns hcount
    · exact B.down_blocks hf
  | up c i =>
    obtain ⟨t, hf, rfl⟩ := Option.map_eq_some_iff.mp hs
    exact B.up S hf
  | lock c j =>
    obtain ⟨t, hf, h⟩ := Option.bind_eq_some_iff.mp hs
    unfold State.tryLock at h
    split at h
    · injection h with h
      subst h
      exact B.setLock j _
    · cases h
  | unlock c j =>
    obtain ⟨t, hr, h⟩ := Option.bind_eq_some_iff.mp hs
    unfold State.unlock at h
    split at h
    all_goals try cases h
    all_goals
      -- the lock is given back with nothing in hand, or with a zombie
      split at h
      · injection h with h
        subst h
        exact B.setLock j _
      · cases h
  | wait c j =>
    obtain ⟨t, hf, h⟩ := Option.bind_eq_some_iff.mp hs
    unfold State.wait at h
    split at h
    · injection h with h
      subst h
      exact B.begin_call hf rfl rfl rfl rfl ⟨[.releases j t], rfl, by simp [Event.quiet]⟩ rfl
        (by simp)
    · cases h
  | notify c j limit =>
    obtain ⟨t, hf, h⟩ := Option.bind_eq_some_iff.mp hs
    unfold State.notify at h
    split at h
    · injection h with h
      subst h
      exact B.begin_call hf rfl rfl rfl rfl ⟨[.notifies j limit], rfl, by simp [Event.quiet]⟩ rfl
        (by simp)
    · cases h

theorem init (next : TCB C N → Option (TCB C N)) (count : I → BitVec 32) :
    Balanced count (State.init next count : State C N I J) := by
  refine ⟨?_, ?_, ?_, ?_⟩
  · intro i
    have h : ((count i).setWidth 64).toNat = (count i).toNat := BitVec.toNat_setWidth_of_le (by decide)
    exact ⟨0, by simp only [State.init, List.countP_nil, h, Nat.mul_zero, Nat.add_zero, Nat.zero_add]⟩
  · intro i _
    exact (Threaded.empty (Q := QueueId I J) next).contents_eq (QueueId.waiting i)
  · intro i n
    simp [Granted, State.init]
  · intro i n
    simp [Asking, State.init]

end Balanced

/-! ## Idle threads

The callback of `down()` asserts that its thread is no idle one, so a core whose idle thread fails
the first test stops. Therefore no idle thread is ever in the queue of a semaphore, and an `up()`
never takes one. The invariant is about the log: what has been granted to an idle thread has also
let it go, after every step. -/

/-- An idle thread never waits: a `down()` it is granted returns in the same section. -/
structure IdleReturns (s : State C N I J) : Prop where
  going : ∀ i c, s.log.countP (Event.grantsTo i (.idle c)) = s.log.countP (Event.letsGo i (.idle c))
  callback : ∀ c i d, s.callback c ≠ some (.granted i (.idle d))
  call : ∀ t i d, s.call t ≠ .up i (.idle d)

namespace IdleReturns

variable {reaper : J} {line : QueueId I J → List N} {place : N → Place (Slot C N) (QueueId I J)}
  {c : C} {t : TCB C N}

theorem of (R : IdleReturns s)
    (hlog : ∃ es, s'.log = s.log ++ es ∧ ∀ i c,
      es.countP (Event.grantsTo i (.idle c)) = es.countP (Event.letsGo i (.idle c)))
    (hcb : ∀ c k, s'.callback c = some k → s.callback c = some k ∨ ∀ i d, k ≠ .granted i (.idle d))
    (hcall : ∀ t, s'.call t = s.call t ∨ ∀ i d, s'.call t ≠ .up i (.idle d)) : IdleReturns s' := by
  obtain ⟨es, hlog, hes⟩ := hlog
  refine ⟨?_, ?_, ?_⟩
  · intro i c
    rw [hlog, List.countP_append, List.countP_append, R.going, hes]
  · intro c i d h
    rcases hcb c _ h with h | h
    · exact R.callback c i d h
    · exact h i d rfl
  · intro t i d h
    rcases hcall t with h' | h'
    · exact R.call t i d (by rw [← h', h])
    · exact h' i d h

/-- Neither the log nor a callback changes, and no call but `t`'s. -/
theorem same (R : IdleReturns s) (t : TCB C N) (hlog : s'.log = s.log)
    (hcb : s'.callback = s.callback) {k : Call C N I J} (hcall : s'.call = Function.update s.call t k)
    (hk : ∀ i d, k ≠ .up i (.idle d)) : IdleReturns s' := by
  refine R.of ⟨[], by simp [hlog], by simp⟩ (fun c k h => Or.inl (by rw [← hcb]; exact h)) ?_
  intro u
  rw [hcall]
  by_cases hu : u = t
  · subst hu
    rw [Function.update_self]
    exact Or.inr hk
  · exact Or.inl (Function.update_of_ne hu _ _)

theorem keep (R : IdleReturns s) (hlog : s'.log = s.log) (hcb : s'.callback = s.callback)
    (hcall : s'.call = s.call) : IdleReturns s' :=
  R.of ⟨[], by simp [hlog], by simp⟩ (fun c k h => Or.inl (by rw [← hcb]; exact h))
    fun t => Or.inl (by rw [hcall])

theorem leaveBlock (R : IdleReturns s) {f : Action I J} (h : s.leaveBlock t f = some s') :
    IdleReturns s' := by
  cases f with
  | yield =>
    injection h with h
    subst h
    exact R.keep rfl rfl rfl
  | stop =>
    dsimp only [State.leaveBlock] at h
    split at h
    · injection h with h
      subst h
      exact R.keep rfl rfl rfl
    · cases h
  | down i =>
    injection h with h
    subst h
    exact R.same t rfl rfl rfl (by simp)
  | wait j e =>
    injection h with h
    subst h
    exact R.same t rfl rfl rfl (by simp)

theorem setCallback (R : IdleReturns s) (c : C) {o : Option (Callback C N I J)}
    (ho : ∀ i d, o ≠ some (.granted i (.idle d))) : IdleReturns (s.setCallback c o) := by
  refine R.of ⟨[], by simp [State.setCallback], by simp⟩ ?_ fun t => Or.inl rfl
  intro d k hk
  by_cases hd : d = c
  · subst hd
    simp only [State.setCallback, Function.update_self] at hk
    refine Or.inr ?_
    intro i d hki
    exact ho i d (by rw [hk, hki])
  · refine Or.inl ?_
    simpa [State.setCallback, hd] using hk

theorem resume (R : IdleReturns s) (h : s.resume c = some s') : IdleReturns s' := by
  unfold State.resume at h
  have R₁ := R.setCallback c (o := none) (by simp)
  split at h
  · exact R₁.leaveBlock h
  · injection h with h
    subst h
    exact R₁

theorem schedule (R : IdleReturns s) (tcb : TCB C N) : IdleReturns (s.schedule tcb) :=
  R.keep rfl rfl rfl

theorem emit (R : IdleReturns s) (es : List (Event C N I J)) (hes : ∀ i c,
      es.countP (Event.grantsTo i (.idle c)) = es.countP (Event.letsGo i (.idle c))) :
    IdleReturns (s.emit es) :=
  R.of ⟨es, rfl, hes⟩ (fun _ _ h => Or.inl h) fun _ => Or.inl rfl

theorem remove (R : IdleReturns s) (q : QueueId I J) : IdleReturns (s.remove q).2 :=
  R.keep rfl rfl rfl

theorem callbackStep (R : IdleReturns s) {k : Callback C N I J} (hk : s.callback c = some k)
    (h : s.callbackStep reaper c k = some s') : IdleReturns s' := by
  cases k with
  | run f me =>
    cases f with
    | yield => exact (R.schedule me).resume h
    | stop =>
      dsimp only [State.callbackStep] at h
      split at h
      · exact R.resume h
      · obtain ⟨s₁, hs₁, rfl⟩ := Option.map_eq_some_iff.mp h
        unfold State.tryLock at hs₁
        split at hs₁
        · injection hs₁ with hs₁
          subst hs₁
          exact (R.keep rfl rfl rfl : IdleReturns ((s.setLock reaper (some (.callback c))).add
            .zombies me)).setCallback c (by simp)
        · cases hs₁
    | down i =>
      dsimp only [State.callbackStep, State.downAgain] at h
      split at h
      · cases h
      rename_i hme
      split at h
      · injection h with h
        subst h
        cases me with
        | idle d => exact absurd rfl hme
        | made n =>
          refine IdleReturns.emit ?_ _ (by simp [Event.grantsTo, Event.letsGo])
          exact (R.keep rfl rfl rfl : IdleReturns (s.setCount i (s.count i - 1))).setCallback c
            (by simp)
      · exact (R.keep rfl rfl rfl : IdleReturns (s.add (.waiting i) me)).resume h
    | wait j e =>
      dsimp only [State.callbackStep, State.waitAgain] at h
      split at h
      · cases h
      split at h
      · cases h
      split at h
      · cases h
      split at h
      · refine IdleReturns.resume ?_ h
        exact (R.keep rfl rfl rfl : IdleReturns (s.add (.queue j) me)).emit _
          (by simp [Event.grantsTo, Event.letsGo])
      · injection h with h
        subst h
        exact R.setCallback c (by simp)
  | granted i me =>
    refine IdleReturns.resume ((R.schedule me).emit _ ?_) h
    cases me with
    | idle d => exact absurd hk (R.callback c i d)
    | made n => simp [Event.grantsTo, Event.letsGo]
  | missed j me => exact (R.schedule me).resume h
  | notify =>
    have R₁ : IdleReturns ((s.setEpoch reaper (s.epoch reaper + 1)).emit [.notifies reaper 1]) :=
      (R.keep rfl rfl rfl : IdleReturns (s.setEpoch reaper (s.epoch reaper + 1))).emit _
        (by simp [Event.grantsTo, Event.letsGo])
    dsimp only [State.callbackStep] at h
    split at h
    · rename_i hrem
      injection h with h
      subst h
      have R₂ := R₁.remove (.queue reaper)
      rw [hrem] at R₂
      exact R₂.setCallback c (by simp)
    · injection h with h
      subst h
      exact R₁.setCallback c (by simp)
  | rouse next =>
    injection h with h
    subst h
    exact (R.schedule next).setCallback c (by simp)
  | unlock =>
    refine IdleReturns.resume ?_ h
    exact (R.keep rfl rfl rfl : IdleReturns (s.setLock reaper none)).emit _
      (by simp [Event.grantsTo, Event.letsGo])

theorem setCall (R : IdleReturns s) (t : TCB C N) {k : Call C N I J}
    (hk : ∀ i d, k ≠ .up i (.idle d)) : IdleReturns (s.setCall t k) :=
  R.same t rfl rfl rfl hk

theorem callStep (R : IdleReturns s) {k : Call C N I J} (hk : s.call t = k)
    (h : s.callStep c t k = some s') : IdleReturns s' := by
  cases k with
  | none => cases h
  | creating tcb =>
    injection h with h
    subst h
    exact (R.schedule _).setCall t (by simp)
  | deleting it =>
    cases it with
    | idle d => cases h
    | made n =>
      injection h with h
      subst h
      exact (R.keep rfl rfl rfl : IdleReturns (s.setLive n false)).setCall t (by simp)
  | stopping =>
    injection h with h
    subst h
    exact R.keep rfl rfl rfl
  | down i =>
    injection h with h
    subst h
    exact R.keep rfl rfl rfl
  | up i next =>
    injection h with h
    subst h
    refine ((R.schedule next).emit _ ?_).setCall t (by simp)
    cases next with
    | idle d => exact absurd hk (R.call t i d)
    | made n => simp [Event.grantsTo, Event.letsGo]
  | wait j e =>
    injection h with h
    subst h
    exact R.keep rfl rfl rfl
  | relock j =>
    obtain ⟨s₁, hs₁, rfl⟩ := Option.map_eq_some_iff.mp h
    unfold State.tryLock at hs₁
    split at hs₁
    · injection hs₁ with hs₁
      subst hs₁
      exact (R.keep rfl rfl rfl : IdleReturns (s.setLock j _)).setCall t (by simp)
    · cases hs₁
  | notify j limit i =>
    have hdone : IdleReturns ((s.emit [.notified j]).setCall t .none) :=
      (R.emit _ (by simp [Event.grantsTo, Event.letsGo])).setCall t (by simp)
    dsimp only [State.callStep] at h
    split at h
    · split at h
      · rename_i hrem
        injection h with h
        subst h
        have R₁ := R.remove (.queue j)
        rw [hrem] at R₁
        exact R₁.setCall t (by simp)
      · injection h with h
        subst h
        exact hdone
    · injection h with h
      subst h
      exact hdone
  | rouse j limit i next =>
    injection h with h
    subst h
    exact (R.schedule next).setCall t (by simp)

theorem choose (R : IdleReturns s) {f : Action I J} (h : s.choose c t f = some s') :
    IdleReturns s' := by
  unfold State.choose at h
  split at h
  · rename_i hrem
    injection h with h
    subst h
    have R₁ := R.remove .readyQ
    rw [hrem] at R₁
    exact R₁.keep rfl rfl rfl
  · split at h
    · exact (R.keep rfl rfl rfl : IdleReturns (s.setPreempt t false)).leaveBlock h
    · split at h
      · split at h
        · injection h with h
          subst h
          exact R
        · cases h
      · injection h with h
        subst h
        exact R.keep rfl rfl rfl

theorem go (R : IdleReturns s) (h : s.go reaper c = some s') : IdleReturns s' := by
  unfold State.go at h
  cases hc : s.callback c with
  | some k =>
    rw [hc] at h
    exact R.callbackStep hc h
  | none =>
    rw [hc] at h
    dsimp only at h
    cases hb : s.block (s.stack c) with
    | outside =>
      rw [hb] at h
      exact R.callStep rfl h
    | choosing f =>
      rw [hb] at h
      exact R.choose h
    | chosen f next_tcb =>
      rw [hb] at h
      injection h with h
      subst h
      exact R.keep rfl rfl rfl
    | switching f next_tcb =>
      rw [hb] at h
      injection h with h
      subst h
      have R₁ := R.setCallback c (o := some (.run f (s.stack c))) (by simp)
      exact R₁.keep rfl rfl rfl
    | away f =>
      rw [hb] at h
      cases h

/-- `up()` takes no idle thread: there is none in the queue. -/
theorem up (R : IdleReturns s) (S : Sound reaper s line place) {i : I} : IdleReturns (s.up t i) := by
  rcases S.places.take (.waiting i) with ⟨hl, hrem⟩ | ⟨n, l, qs, hl, hrem, T⟩
  · simp only [State.up, State.remove, hrem]
    exact (R.keep rfl rfl rfl : IdleReturns (s.setCount i _)).emit _
      (by simp [Event.grantsTo, Event.letsGo])
  · simp only [State.up, State.remove, hrem]
    exact ((R.keep rfl rfl rfl : IdleReturns { s with queues := qs }).emit _
      (by simp [Event.grantsTo, Event.letsGo])).setCall t (by simp)

theorem step (R : IdleReturns s) (h : Ok reaper s) {l : Label C N I J}
    (hs : step reaper s l = some s') : IdleReturns s' := by
  obtain ⟨line, place, S⟩ := h
  cases l with
  | go c => exact R.go hs
  | timer c =>
    rcases S.timer_cases hs with rfl | ⟨-, rfl⟩
    · exact R
    · exact R.keep rfl rfl rfl
  | create c n =>
    obtain ⟨t, hf, h⟩ := Option.bind_eq_some_iff.mp hs
    unfold State.create at h
    split at h
    · cases h
    · injection h with h
      subst h
      refine IdleReturns.setCall ?_ t (by simp)
      refine IdleReturns.setCall ?_ (.made n) (by simp)
      exact R.keep rfl rfl rfl
  | reap c =>
    obtain ⟨t, hf, rfl⟩ := Option.map_eq_some_iff.mp hs
    unfold State.reap
    split
    · rename_i hrem
      have R₁ := R.remove .zombies
      rw [hrem] at R₁
      exact R₁.setCall t (by simp)
    · exact R
  | yield c =>
    obtain ⟨t, hf, rfl⟩ := Option.map_eq_some_iff.mp hs
    exact R.keep rfl rfl rfl
  | stop c =>
    obtain ⟨t, hf, rfl⟩ := Option.map_eq_some_iff.mp hs
    exact R.setCall t (by simp)
  | down c i =>
    obtain ⟨t, hf, rfl⟩ := Option.map_eq_some_iff.mp hs
    unfold State.down
    split
    · refine (R.keep rfl rfl rfl : IdleReturns (s.setCount i _)).emit _ ?_
      simp [Event.grantsTo, Event.letsGo, List.countP_cons]
    · exact (R.emit _ (by simp [Event.grantsTo, Event.letsGo])).setCall t (by simp)
  | up c i =>
    obtain ⟨t, hf, rfl⟩ := Option.map_eq_some_iff.mp hs
    exact R.up S
  | lock c j =>
    obtain ⟨t, hf, h⟩ := Option.bind_eq_some_iff.mp hs
    unfold State.tryLock at h
    split at h
    · injection h with h
      subst h
      exact R.keep rfl rfl rfl
    · cases h
  | unlock c j =>
    obtain ⟨t, hr, h⟩ := Option.bind_eq_some_iff.mp hs
    unfold State.unlock at h
    split at h
    all_goals try cases h
    all_goals
      split at h
      · injection h with h
        subst h
        exact R.keep rfl rfl rfl
      · cases h
  | wait c j =>
    obtain ⟨t, hf, h⟩ := Option.bind_eq_some_iff.mp hs
    unfold State.wait at h
    split at h
    · injection h with h
      subst h
      exact ((R.keep rfl rfl rfl : IdleReturns (s.setLock j none)).emit _
        (by simp [Event.grantsTo, Event.letsGo])).setCall t (by simp)
    · cases h
  | notify c j limit =>
    obtain ⟨t, hf, h⟩ := Option.bind_eq_some_iff.mp hs
    unfold State.notify at h
    split at h
    · injection h with h
      subst h
      exact ((R.keep rfl rfl rfl : IdleReturns (s.setEpoch j _)).emit _
        (by simp [Event.grantsTo, Event.letsGo])).setCall t (by simp)
    · cases h

theorem init (next : TCB C N → Option (TCB C N)) (count : I → BitVec 32) :
    IdleReturns (State.init next count : State C N I J) := by
  refine ⟨?_, ?_, ?_⟩
  · intro i c
    rfl
  · intro c i d h
    cases h
  · intro t i d h
    cases h

end IdleReturns

/-! ## Every run -/

theorem Balanced.runs {reaper : J} {count : I → BitVec 32} (B : Balanced count s)
    (R : IdleReturns s) (h : Ok reaper s) {labels : List (Label C N I J)}
    (hr : runs (Threads.step reaper) s labels = some s') :
    Ok reaper s' ∧ Balanced count s' ∧ IdleReturns s' := by
  refine runs_inv (fun s => Ok reaper s ∧ Balanced count s ∧ IdleReturns s) ?_ ⟨h, B, R⟩
    (RunOk.of_forall (fun _ _ => trivial) _ _) hr
  intro s l s' ⟨h, B, R⟩ _ hs
  exact ⟨h.step hs, B.step h hs, R.step h hs⟩

theorem not_granted_idle (R : IdleReturns s) (i : I) (c : C) : ¬ Granted s i (.idle c) := by
  intro h
  rcases h with ⟨d, h⟩ | ⟨u, h⟩
  · exact R.callback d i c h
  · exact R.call u i c h

/-- Whatever the cores do: the calls granted and what is left in the counter are what there was
and what `up()` has added, as numbers modulo 2^64, and as numbers until the counter wraps; nobody
waits while there is something left; threads leave the queue as they joined it; and each grant
lets its thread go on once, the one that is on its way to `schedule` being still to come. -/
theorem semaphores_keep_count (reaper : J) (next : TCB C N → Option (TCB C N))
    (count : I → BitVec 32) (labels : List (Label C N I J)) (s : State C N I J)
    (hr : runs (step reaper) (State.init next count) labels = some s) :
    ∃ queue : QueueId I J → List (TCB C N), Threaded s.queues queue ∧ ∀ i,
      (s.log.countP (Event.grantsOn i) + (s.count i).toNat) % 2 ^ 64 =
        ((count i).toNat + s.log.countP (Event.upsOn i)) % 2 ^ 64 ∧
      (s.log.countP (Event.grantsOn i) + (s.count i).toNat =
          (count i).toNat + s.log.countP (Event.upsOn i) ↔
        (count i).toNat + s.log.countP (Event.upsOn i) <
          s.log.countP (Event.grantsOn i) + 2 ^ 64) ∧
      (0 < s.count i → queue (.waiting i) = []) ∧
      s.queues.joined (.waiting i) = s.queues.left (.waiting i) ++ queue (.waiting i) ∧
      (∀ t, (Granted s i t → s.log.countP (Event.grantsTo i t) =
            s.log.countP (Event.letsGo i t) + 1) ∧
          (¬ Granted s i t → s.log.countP (Event.grantsTo i t) =
            s.log.countP (Event.letsGo i t))) ∧
      ∀ n, (Asking s i (.made n) → s.log.countP (Event.asksBy i (.made n)) =
            s.log.countP (Event.grantsTo i (.made n)) + 1) ∧
          (¬ Asking s i (.made n) → s.log.countP (Event.asksBy i (.made n)) =
            s.log.countP (Event.grantsTo i (.made n))) := by
  obtain ⟨⟨line, place, S⟩, B, R⟩ :=
    (Balanced.init next count).runs (IdleReturns.init next count) (Ok.init reaper next count) hr
  refine ⟨_, S.places.threaded, ?_⟩
  intro i
  obtain ⟨wraps, hw⟩ := B.balance i
  have hlt := (s.count i).isLt
  refine ⟨?_, ?_, ?_, S.places.threaded.fifo _, ?_, B.asking i⟩
  · rw [← hw, Nat.add_mul_mod_self_left]
  · constructor
    · intro h
      rw [← h]
      exact Nat.add_lt_add_left hlt _
    · intro h
      -- no room for a wrap
      have h0 : wraps = 0 := by
        by_contra hne
        have : 2 ^ 64 * 1 ≤ 2 ^ 64 * wraps := Nat.mul_le_mul_left _ (Nat.one_le_iff_ne_zero.mpr hne)
        omega
      rw [h0, Nat.mul_zero, Nat.add_zero] at hw
      exact hw
  · intro h
    rw [← S.places.threaded.contents_eq]
    exact B.empty i h
  · intro t
    cases t with
    | idle c => exact ⟨fun h => absurd h (not_granted_idle R i c), fun _ => R.going i c⟩
    | made n => exact B.going i n

/-- The thread that waits is let go. -/
def waitedRun : List (Label Bool Nat Unit Unit) :=
  waitingRun ++ [.up false (), .go false, .yield false, .go false, .go false, .go false, .go false]

theorem semaphores_keep_count_waited :
    ∃ s, runs (step ()) (State.init (fun _ => none) fun _ => 0#32) waitedRun = some s ∧
      s.log.countP (Event.letsGo () (.made 7)) = 1 ∧
      ∃ queue, Threaded s.queues queue ∧
        s.queues.joined (.waiting ()) = s.queues.left (.waiting ()) ++ queue (.waiting ()) ∧
        s.queues.left (.waiting ()) = [.made 7] ∧
        (s.log.countP (Event.grantsOn ()) + (s.count ()).toNat = 0 +
          s.log.countP (Event.upsOn ())) := by
  have hobs : (runs (step ()) (State.init (fun _ => none) fun _ => 0#32) waitedRun).map
      (fun s => (s.log.countP (Event.letsGo () (.made 7)), s.queues.left (.waiting ()),
        s.log.countP (Event.upsOn ()))) = some (1, [.made 7], 1) := by
    decide
  obtain ⟨s, hs, hlog⟩ := Option.map_eq_some_iff.mp hobs
  injection hlog with hgo hlog
  injection hlog with hleft hups
  obtain ⟨queue, T, h⟩ := semaphores_keep_count () _ _ _ s hs
  refine ⟨s, hs, hgo, queue, T, (h ()).2.2.2.1, hleft, (h ()).2.1.mpr ?_⟩
  rw [hups, BitVec.toNat_zero]
  exact Nat.lt_of_lt_of_le (by decide) (Nat.le_add_left _ _)

/-! ## A counter that wraps -/

/-- Nobody waits: each `up()` adds one to the counter. -/
theorem ups_counted (reaper : J) (c : C) (t : TCB C N) (i : I) (k : Nat) :
    ∀ s : State C N I J, s.free c = some t → (s.queues.remove (.waiting i)).1 = none →
      ∃ s', runs (step reaper) s (List.replicate k (.up c i)) = some s' ∧
        s'.count i = s.count i + BitVec.ofNat 64 k ∧
        s'.log.countP (Event.grantsOn i) = s.log.countP (Event.grantsOn i) ∧
        s'.log.countP (Event.upsOn i) = s.log.countP (Event.upsOn i) + k := by
  induction k with
  | zero =>
    intro s _ _
    exact ⟨s, rfl, by simp, rfl, rfl⟩
  | succ k ih =>
    intro s hf hq
    have hup : s.up t i = (s.setCount i (s.count i + 1)).emit [.ups i] := by
      simp only [State.up, State.remove, hq]
    have hs : step reaper s (.up c i) = some ((s.setCount i (s.count i + 1)).emit [.ups i]) := by
      show (s.free c).map _ = _
      rw [hf, ← hup]
      rfl
    obtain ⟨s', hr, hcount, hgr, hups⟩ := ih ((s.setCount i (s.count i + 1)).emit [.ups i]) hf hq
    refine ⟨s', runs_cons.mpr ⟨_, hs, hr⟩, ?_, ?_, ?_⟩
    · rw [hcount]
      simp only [State.emit, State.setCount, Function.update_self]
      rw [Nat.add_comm k 1, BitVec.ofNat_add, BitVec.add_assoc]
      rfl
    · rw [hgr]
      simp [State.emit, State.setCount, List.countP_append, Event.grantsOn]
    · rw [hups]
      simp only [State.emit, State.setCount, List.countP_append, List.countP_singleton, Event.upsOn,
        decide_true, if_true]
      omega

/-- After 2^64 calls of `up()` and none of `down()` the counter is 0 again. -/
theorem count_wraps :
    ¬ ∀ (labels : List (Label Unit Nat Unit Unit)) (s : State Unit Nat Unit Unit),
      runs (step ()) (State.init (fun _ => none) fun _ => 0#32) labels = some s →
        s.log.countP (Event.grantsOn ()) + (s.count ()).toNat =
          (0#32).toNat + s.log.countP (Event.upsOn ()) := by
  intro h
  obtain ⟨s, hr, hcount, hgr, hups⟩ := ups_counted () () (.idle ()) () (2 ^ 64)
    (State.init (fun _ => none) fun _ => 0#32 : State Unit Nat Unit Unit) rfl rfl
  have heq := h _ s hr
  have h0 : (s.count ()).toNat = 0 := by
    rw [hcount]
    rfl
  rw [h0, hgr, hups] at heq
  simp [State.init] at heq

end OsKernel.Threads
