import Mathlib.Data.Fintype.Card
import Mathlib.Data.List.Nodup
import OsKernel.Threads.Moves

/-!
# Condition variables miss no signal

`wait()` gives up the lock after it has looked at the epoch, and its callback looks again
before the thread joins the queue. A `notify` in between changes the epoch, so the thread does
not join; a `notify` after it finds the thread in the queue. The epoch has 64 bits: it is the
same again after 2^64 notifications, and up to then nothing is missed.

## What is missed, and when

A signal is missed if a thread gave up the lock before the notification and is in the queue
after it. `After` follows one notification along the run from the step that makes it: while it
is at work it has the lock and the front of the queue (`Notifying`), and when it is through,
whoever is in the queue was left there by its limit or has given up the lock since
(`Notified`). The second is where the epoch comes in: a thread that joins knows the epoch, and
the epoch has grown.

`Watched` ties epochs to the log. The epoch of the condition is the number of notifications,
modulo 2^64, and a thread in `wait()` has the epoch that it saw when it gave up the lock. With
fewer than 2^64 notifications in the run, equal epochs mean that none came between.

Waits may also end without a notification, when `block` has nobody to switch to. That is the
code's choice (`CanReturn`), and the callers test again in a loop; the results do not exclude
it.

The threads have 32-bit addresses in the last results, as in the kernel, so that there are
finitely many. `betweenRun` is the run in which a signal comes in the gap.
-/

set_option autoImplicit false
set_option linter.unusedSectionVars false

namespace OsKernel.Threads

open Lib

variable {C N I J : Type} [DecidableEq C] [DecidableEq N] [DecidableEq I] [DecidableEq J]
  {s s' : State C N I J} {reaper j : J} {c : C} {t : TCB C N}

/-! ## What holds of a condition in every state

Two facts are needed of the state before a notification. Whoever is in the middle of a
notification has the condition's lock, so there is at most one (`Watched.thread_unique`). And the
epoch that a waiting thread remembers is the number of notifications in the log up to its release
of the lock, modulo 2^64: the log is what turns a 64-bit number back into a moment of the run. -/

/-- The last wait of `t` on `j` released the lock at epoch `old_epoch`. -/
def Released (j : J) (t : TCB C N) (old_epoch : BitVec 64) (log : List (Event C N I J)) : Prop :=
  ∃ l₁ l₂, log = l₁ ++ .releases j t :: l₂ ∧ .releases j t ∉ l₂ ∧
    old_epoch = BitVec.ofNat 64 (l₁.countP (Event.notifiesOn j))

theorem Released.append {e : BitVec 64} {log es : List (Event C N I J)} (h : Released j t e log)
    (hes : .releases j t ∉ es) : Released j t e (log ++ es) := by
  obtain ⟨l₁, l₂, rfl, hl, he⟩ := h
  exact ⟨l₁, l₂ ++ es, by simp, by simp [hl, hes], he⟩

structure Watched (reaper j : J) (s : State C N I J) : Prop where
  epoch : s.epoch j = BitVec.ofNat 64 (s.log.countP (Event.notifiesOn j))
  call : ∀ t, (s.call t).notifying j = true → s.lock j = some (.thread t)
  callback : reaper = j → ∀ c, signals (s.callback c) = true → s.lock j = some (.callback c)
  waits : ∀ t e, s.call t = .wait j e → Released j t e s.log

namespace Watched

theorem still (W : Watched reaper j s) (h : Still reaper j s s') : Watched reaper j s' := by
  obtain ⟨es, hlog, hes⟩ := h.log
  refine ⟨?_, ?_, ?_, ?_⟩
  · have h0 : es.countP (Event.notifiesOn j) = 0 := by
      rw [List.countP_eq_zero]
      intro e he
      rw [Event.notifiesOn_of_not (hes e he)]
      simp
    rw [h.epoch, W.epoch, hlog, List.countP_append, h0, Nat.add_zero]
  · intro t hk
    rw [h.lock]
    rcases h.call t with h₁ | ⟨-, h₂, -⟩
    · exact W.call t (by rw [← h₁]; exact hk)
    · rw [h₂] at hk
      cases hk
  · intro hj c hc
    rw [h.lock]
    rcases h.callback hj c with h₁ | ⟨-, h₂⟩
    · exact W.callback hj c (by rw [← h₁]; exact hc)
    · rw [h₂] at hc
      cases hc
  · intro t e hk
    rw [hlog]
    rcases h.call t with h₁ | ⟨-, -, h₃⟩
    · refine (W.waits t e (by rw [← h₁]; exact hk)).append ?_
      intro hm
      have := hes _ hm
      simp [Event.onCond] at this
    · rw [hk] at h₃
      simp [Call.waiting] at h₃

/-- Two that are signalling are one. -/
theorem thread_unique (W : Watched reaper j s) {u : TCB C N} (hl : s.lock j = some (.thread u))
    (hk : (s.call t).notifying j = true) : t = u := by
  rw [W.call t hk] at hl
  injection hl with hl
  injection hl

/-- The lock changes hands, and nobody is in the middle of a notification. -/
theorem setLock (W : Watched reaper j s) (o : Option (Holder C N))
    (hcall : ∀ t, (s.call t).notifying j = false)
    (hcb : reaper = j → ∀ c, signals (s.callback c) = false) :
    Watched reaper j (s.setLock j o) := by
  refine ⟨W.epoch, ?_, ?_, W.waits⟩
  · intro t hk
    have : (s.call t).notifying j = true := hk
    rw [hcall t] at this
    cases this
  · intro hj c hc
    have : signals (s.callback c) = true := hc
    rw [hcb hj c] at this
    cases this

theorem emit (W : Watched reaper j s) (e : Event C N I J) (hn : e.notifiesOn j = false)
    (hr : ∀ t, e ≠ .releases j t) : Watched reaper j (s.emit [e]) := by
  refine ⟨?_, W.call, W.callback, ?_⟩
  · show s.epoch j = _
    rw [W.epoch]
    simp [State.emit, List.countP_append, hn]
  · intro t e' hk
    exact (W.waits t e' hk).append (by simpa using Ne.symm (hr t))

theorem setCall (W : Watched reaper j s) {k : Call C N I J}
    (hl : k.notifying j = true → s.lock j = some (.thread t)) (hw : k.waiting j = false) :
    Watched reaper j (s.setCall t k) := by
  refine ⟨W.epoch, ?_, W.callback, ?_⟩
  · intro u hu
    by_cases hut : u = t
    · subst hut
      exact hl (by simpa [State.setCall] using hu)
    · exact W.call u (by simpa [State.setCall, hut] using hu)
  · intro u e hu
    by_cases hut : u = t
    · subst hut
      simp only [State.setCall, Function.update_self] at hu
      rw [hu] at hw
      simp [Call.waiting] at hw
    · exact W.waits u e (by simpa [State.setCall, hut] using hu)

theorem setCallback (W : Watched reaper j s) {o : Option (Callback C N I J)}
    (hl : reaper = j → signals o = true → s.lock j = some (.callback c)) :
    Watched reaper j (s.setCallback c o) := by
  refine ⟨W.epoch, W.call, ?_, W.waits⟩
  intro hj d hd
  by_cases hdc : d = c
  · subst hdc
    exact hl hj (by simpa [State.setCallback] using hd)
  · exact W.callback hj d (by simpa [State.setCallback, hdc] using hd)

/-- The epoch moves on. -/
theorem notifies (W : Watched reaper j s) (limit : BitVec 64) :
    Watched reaper j ((s.setEpoch j (s.epoch j + 1)).emit [.notifies j limit]) := by
  refine ⟨?_, W.call, W.callback, ?_⟩
  · simp only [State.emit, State.setEpoch, Function.update_self, List.countP_append,
      List.countP_singleton, Event.notifiesOn, decide_true, if_true]
    rw [BitVec.ofNat_add, ← W.epoch]
    rfl
  · intro t e hk
    exact (W.waits t e hk).append (by simp)

theorem queues (W : Watched reaper j s) (qs : Queues (QueueId I J) (TCB C N)) :
    Watched reaper j { s with queues := qs } :=
  ⟨W.epoch, W.call, W.callback, W.waits⟩

theorem move (W : Watched reaper j s) (h : Moves reaper j s s') : Watched reaper j s' := by
  have hfree : s.lock j = none → ∀ t, (s.call t).notifying j = false := by
    intro hl t
    cases hk : (s.call t).notifying j with
    | false => rfl
    | true => rw [W.call t hk] at hl; cases hl
  have hfree' : (∀ c, s.lock j ≠ some (.callback c)) → reaper = j →
      ∀ c, signals (s.callback c) = false := by
    intro hl hj c
    cases hk : signals (s.callback c) with
    | false => rfl
    | true => exact absurd (W.callback hj c hk) (hl c)
  have hmine : ∀ {t : TCB C N}, s.lock j = some (.thread t) → (s.call t).notifying j = false →
      ∀ u, (s.call u).notifying j = false := by
    intro t hl ht u
    cases hk : (s.call u).notifying j with
    | false => rfl
    | true => rw [W.thread_unique hl hk, ht] at hk; cases hk
  cases h with
  | still h => exact W.still h
  | locks t hl h => exact (W.setLock _ (hfree hl) (hfree' (by simp [hl]))).still h
  | unlocks t hl hk h => exact (W.setLock _ (hmine hl hk) (hfree' (by simp [hl]))).still h
  | releases t hl hk h =>
    have hk' : (s.call t).notifying j = false := by rw [hk]; rfl
    have W₁ := W.setLock none (hmine hl hk') (hfree' (by simp [hl]))
    rw [h]
    refine ⟨?_, ?_, W₁.callback, ?_⟩
    · show s.epoch j = _
      rw [W.epoch]
      simp [State.setCall, State.emit, State.setLock, List.countP_append, Event.notifiesOn]
    · intro u hu
      by_cases hut : u = t
      · subst hut
        simp [State.setCall, Call.notifying] at hu
      · exact W₁.call u (by simpa [State.setCall, State.emit, hut] using hu)
    · intro u e hu
      by_cases hut : u = t
      · subst hut
        simp only [State.setCall, Function.update_self, Call.wait.injEq, true_and] at hu
        exact ⟨s.log, [], rfl, by simp, by rw [← hu, W.epoch]⟩
      · refine (W₁.waits u e (by simpa [State.setCall, State.emit, hut] using hu)).append ?_
        simpa using hut
  | joins c me e hl hc hk he hq h =>
    exact ((W.queues _).emit _ rfl (by simp) : Watched reaper j ((s.add (.queue j) me).emit
      [.joins j me])).still h
  | notifies t limit hl hk h =>
    rw [h]
    exact (W.notifies limit).setCall (fun _ => hl) rfl
  | takes t limit i next rest hk hi hq hq' h =>
    rw [h]
    exact (W.queues _).setCall (fun _ => W.call t (by rw [hk]; simp [Call.notifying])) rfl
  | ends t limit i hk hi h =>
    rw [h]
    exact (W.emit _ rfl (by simp)).setCall (by simp [Call.notifying]) rfl
  | rouses t limit i next hk h =>
    rw [h]
    exact (W.queues _).setCall (fun _ => W.call t (by rw [hk]; simp [Call.notifying])) rfl
  | puts c me hj hl hc h =>
    have W₁ := W.setLock (some (.callback c)) (hfree hl) (hfree' (by simp [hl]))
    refine Watched.still (W₁.setCallback fun _ _ => ?_) h
    simp [State.setLock]
  | signals c next rest hj hc hq hq' h =>
    rw [h]
    exact ((W.notifies 1).queues _).setCallback fun _ _ => W.callback hj c (by rw [hc]; rfl)
  | signalsNobody c hj hc hq h =>
    rw [h]
    exact (W.notifies 1).setCallback fun _ _ => W.callback hj c (by rw [hc]; rfl)
  | signalled c next hj hc h =>
    rw [h]
    exact (W.queues _).setCallback fun _ _ => W.callback hj c (by rw [hc]; rfl)
  | unlocked c hj hc h =>
    have hl := W.callback hj c (by rw [hc]; rfl)
    have hcall : ∀ t, (s.call t).notifying j = false := by
      intro t
      cases hk : (s.call t).notifying j with
      | false => rfl
      | true => rw [W.call t hk] at hl; cases hl
    -- the other cores are not signalling: the lock was this core's
    have W₁ : Watched reaper j ((s.setCallback c none).setLock j none) := by
      refine Watched.setLock (W.setCallback (by simp [Threads.signals])) none hcall ?_
      intro _ d
      by_cases hd : d = c
      · subst hd
        simp [State.setCallback, Threads.signals]
      · cases hk : Threads.signals ((s.setCallback c none).callback d) with
        | false => rfl
        | true =>
          have := W.callback hj d (by simpa [State.setCallback, hd] using hk)
          rw [hl] at this
          simp only [Option.some.injEq, Holder.callback.injEq] at this
          exact absurd this.symm hd
    exact Watched.still (W₁.emit (.notified j) rfl (by simp)) h

theorem init (next : TCB C N → Option (TCB C N)) (count : I → BitVec 32) :
    Watched reaper j (State.init next count : State C N I J) := by
  refine ⟨rfl, ?_, ?_, ?_⟩
  · intro t h
    cases h
  · intro _ c h
    cases h
  · intro t e h
    cases h

end Watched

/-! ## After a notification

One notification is followed through the rest of the run. It takes the front of the queue, one
thread in each turn of its loop, and other cores make steps between the turns; they cannot reach
the queue, for it has the lock. When it is through, a thread can only come into the queue by way
of a callback that finds its epoch unchanged, and then it has released the lock after this
notification (`Notified.move`). That argument compares two counts of less than 2^64, which is
where the bound on the run is used. -/

/-- The notification that found `front` in the queue is still at work, and has the lock. -/
inductive Notifying (reaper j : J) (limit : BitVec 64) (front : List (TCB C N)) (s : State C N I J) :
    Prop
  | loop (t : TCB C N) (i : BitVec 64) (hk : s.call t = .notify j limit i)
      (hq : s.queues.contents (.queue j) = front.drop i.toNat)
  | rouse (t : TCB C N) (i : BitVec 64) (next : TCB C N) (hk : s.call t = .rouse j limit i next)
      (hi : i < limit) (hq : s.queues.contents (.queue j) = front.drop (i.toNat + 1))
  | signalled (c : C) (next : TCB C N) (hj : reaper = j) (hlimit : limit = 1)
      (hc : s.callback c = some (.rouse next)) (hq : s.queues.contents (.queue j) = front.drop 1)
  | unlock (c : C) (hj : reaper = j) (hlimit : limit = 1) (hc : s.callback c = some .unlock)
      (hq : s.queues.contents (.queue j) = front.drop 1)

/-- It has taken as many threads as it may, or all; what is in the queue now it has left there, or
has waited anew. -/
def Notified (j : J) (limit : BitVec 64) (front : List (TCB C N)) (new : List (Event C N I J))
    (s : State C N I J) : Prop :=
  ∃ k, (limit.toNat ≤ k ∨ front.length ≤ k) ∧
    ∀ t ∈ s.queues.contents (.queue j), t ∈ front.drop k ∨ .releases j t ∈ new

/-- Since the notification, with the events since. -/
def After (reaper j : J) (limit : BitVec 64) (front : List (TCB C N)) (new : List (Event C N I J))
    (s : State C N I J) : Prop :=
  (Notifying reaper j limit front s ∧ .notified j ∉ new) ∨ Notified j limit front new s

variable {limit : BitVec 64} {front : List (TCB C N)} {new es : List (Event C N I J)}

namespace Notifying

/-- Nobody else has the lock. -/
theorem locked (A : Notifying reaper j limit front s) (W : Watched reaper j s) : s.lock j ≠ none := by
  cases A with
  | loop t i hk hq => rw [W.call t (by rw [hk]; simp [Call.notifying])]; simp
  | rouse t i next hk hi hq => rw [W.call t (by rw [hk]; simp [Call.notifying])]; simp
  | signalled c next hj hlimit hc hq => rw [W.callback hj c (by rw [hc]; rfl)]; simp
  | unlock c hj hlimit hc hq => rw [W.callback hj c (by rw [hc]; rfl)]; simp

theorem not_thread (A : Notifying reaper j limit front s) (W : Watched reaper j s)
    (hk : (s.call t).notifying j = false) : s.lock j ≠ some (.thread t) := by
  intro hl
  cases A with
  | loop u i hu hq =>
    have := W.thread_unique hl (by rw [hu]; simp [Call.notifying])
    subst this
    rw [hu] at hk
    simp [Call.notifying] at hk
  | rouse u i next hu hi hq =>
    have := W.thread_unique hl (by rw [hu]; simp [Call.notifying])
    subst this
    rw [hu] at hk
    simp [Call.notifying] at hk
  | signalled c next hj hlimit hc hq =>
    rw [W.callback hj c (by rw [hc]; rfl)] at hl
    cases hl
  | unlock c hj hlimit hc hq =>
    rw [W.callback hj c (by rw [hc]; rfl)] at hl
    cases hl

theorem still (A : Notifying reaper j limit front s) (h : Still reaper j s s') :
    Notifying reaper j limit front s' := by
  have hcall : ∀ {t : TCB C N} {k : Call C N I J}, s.call t = k → k.notifying j = true →
      s'.call t = k := by
    intro t k hk hn
    rcases h.call t with h₁ | ⟨h₁, -, -⟩
    · rw [h₁, hk]
    · rw [hk, hn] at h₁
      cases h₁
  have hcb : ∀ {c : C} {k : Callback C N I J}, reaper = j → s.callback c = some k →
      signals (some k) = true → s'.callback c = some k := by
    intro c k hj hk hn
    rcases h.callback hj c with h₁ | ⟨h₁, -⟩
    · rw [h₁, hk]
    · rw [hk, hn] at h₁
      cases h₁
  cases A with
  | loop t i hk hq => exact .loop t i (hcall hk (by simp [Call.notifying])) (h.contents.trans hq)
  | rouse t i next hk hi hq =>
    exact .rouse t i next (hcall hk (by simp [Call.notifying])) hi (h.contents.trans hq)
  | signalled c next hj hlimit hc hq =>
    exact .signalled c next hj hlimit (hcb hj hc rfl) (h.contents.trans hq)
  | unlock c hj hlimit hc hq => exact .unlock c hj hlimit (hcb hj hc rfl) (h.contents.trans hq)

/-- The thread that notifies is the one that is notifying. -/
theorem is_thread (A : Notifying reaper j limit front s) (W : Watched reaper j s)
    (hk : (s.call t).notifying j = true) :
    (∃ i, s.call t = .notify j limit i ∧ s.queues.contents (.queue j) = front.drop i.toNat) ∨
    ∃ i next, s.call t = .rouse j limit i next ∧ i < limit ∧
      s.queues.contents (.queue j) = front.drop (i.toNat + 1) := by
  have hl := W.call t hk
  cases A with
  | loop u i hu hq =>
    have := W.thread_unique hl (by rw [hu]; simp [Call.notifying])
    subst this
    exact Or.inl ⟨i, hu, hq⟩
  | rouse u i next hu hi hq =>
    have := W.thread_unique hl (by rw [hu]; simp [Call.notifying])
    subst this
    exact Or.inr ⟨i, next, hu, hi, hq⟩
  | signalled c next hj hlimit hc hq =>
    rw [W.callback hj c (by rw [hc]; rfl)] at hl
    cases hl
  | unlock c hj hlimit hc hq =>
    rw [W.callback hj c (by rw [hc]; rfl)] at hl
    cases hl

/-- The core that signals is the one that is notifying. -/
theorem is_core (A : Notifying reaper j limit front s) (W : Watched reaper j s) (hj : reaper = j)
    (hk : signals (s.callback c) = true) :
    limit = 1 ∧ s.callback c ≠ some .notify ∧
      s.queues.contents (.queue j) = front.drop 1 := by
  have hl := W.callback hj c hk
  cases A with
  | loop u i hu hq =>
    rw [W.call u (by rw [hu]; simp [Call.notifying])] at hl
    cases hl
  | rouse u i next hu hi hq =>
    rw [W.call u (by rw [hu]; simp [Call.notifying])] at hl
    cases hl
  | signalled d next hj hlimit hc hq =>
    rw [W.callback hj d (by rw [hc]; rfl)] at hl
    simp only [Option.some.injEq, Holder.callback.injEq] at hl
    subst hl
    exact ⟨hlimit, by rw [hc]; simp, hq⟩
  | unlock d hj hlimit hc hq =>
    rw [W.callback hj d (by rw [hc]; rfl)] at hl
    simp only [Option.some.injEq, Holder.callback.injEq] at hl
    subst hl
    exact ⟨hlimit, by rw [hc]; simp, hq⟩

/-- One step of the run: the notification goes on, or it is through. -/
theorem move (A : Notifying reaper j limit front s) (W : Watched reaper j s)
    (h : Moves reaper j s s') (hlog : s'.log = s.log ++ es) :
    (Notifying reaper j limit front s' ∧ .notified j ∉ es) ∨ Notified j limit front new s' := by
  have hquiet : ∀ {s₁ : State C N I J}, s₁.log = s.log → Still reaper j s₁ s' → .notified j ∉ es := by
    intro s₁ h₁ h hm
    obtain ⟨es', hlog', hes'⟩ := h.log
    rw [h₁, hlog, List.append_cancel_left_eq] at hlog'
    have := hes' _ (by rw [← hlog']; exact hm)
    simp [Event.onCond] at this
  have hnone : s'.log = s.log → es = [] := by
    intro h₁
    rw [hlog] at h₁
    simpa using h₁
  cases h with
  | still h => exact Or.inl ⟨A.still h, hquiet rfl h⟩
  | locks t hl h => exact absurd hl (A.locked W)
  | unlocks t hl hk h => exact absurd hl (A.not_thread W hk)
  | releases t hl hk h => exact absurd hl (A.not_thread W (by rw [hk]; rfl))
  | joins c me e hl hc hk he hq h => exact absurd hl (A.locked W)
  | notifies t limit hl hk h => exact absurd hl (A.not_thread W (by rw [hk]; rfl))
  -- the thread that notifies is at its loop or has one in hand, so the other case is out
  | takes t limit' i next rest hk hi hq hq' h =>
    have hes := hnone (by rw [h]; rfl)
    rcases A.is_thread W (t := t) (by rw [hk]; simp [Call.notifying]) with ⟨i', hk', hc⟩ | ⟨i', n, hk', _⟩
    · rw [hk] at hk'
      injection hk' with _ hlimit hi'
      subst hlimit hi'
      refine Or.inl ⟨.rouse t i next (by rw [h]; simp [State.setCall]) hi ?_, by simp [hes]⟩
      rw [h]
      show (s.remove (.queue j)).2.queues.contents _ = _
      rw [hq', ← List.tail_drop, ← hc, hq]
      rfl
    · rw [hk] at hk'
      cases hk'
  | ends t limit' i hk hi h =>
    rcases A.is_thread W (t := t) (by rw [hk]; simp [Call.notifying]) with ⟨i', hk', hc⟩ | ⟨i', n, hk', _⟩
    · rw [hk] at hk'
      injection hk' with _ hlimit hi'
      subst hlimit hi'
      have hc' : s'.queues.contents (.queue j) = front.drop i.toNat := by
        rw [h]
        exact hc
      refine Or.inr ⟨i.toNat, ?_, fun t ht => Or.inl (by rw [← hc']; exact ht)⟩
      rcases hi with hi | hi
      · exact Or.inl (BitVec.le_def.mp (BitVec.not_lt.mp hi))
      · rw [hi] at hc
        exact Or.inr (List.drop_eq_nil_iff.mp hc.symm)
    · rw [hk] at hk'
      cases hk'
  | rouses t limit' i next hk h =>
    have hes := hnone (by rw [h]; rfl)
    rcases A.is_thread W (t := t) (by rw [hk]; simp [Call.notifying]) with ⟨i', hk', _⟩ | ⟨i', n, hk', hi, hc⟩
    · rw [hk] at hk'
      cases hk'
    · rw [hk] at hk'
      injection hk' with _ hlimit hi' _
      subst hlimit hi'
      refine Or.inl ⟨.loop t (i + 1) (by rw [h]; simp [State.setCall]) ?_, by simp [hes]⟩
      have hsucc : (i + 1).toNat = i.toNat + 1 := by
        have hi := BitVec.lt_def.mp hi
        have hlimit := limit'.isLt
        have h1 : (1 : BitVec 64).toNat = 1 := rfl
        rw [BitVec.toNat_add, h1, Nat.mod_eq_of_lt (by omega)]
      rw [h, hsucc, ← hc]
      exact (Still.schedule next : Still reaper j _ _).contents
  | puts c me hj hl hc h => exact absurd hl (A.locked W)
  -- the callback signals once, and for this notification it has
  | signals c next rest hj hc hq hq' h => exact absurd hc (A.is_core W hj (by rw [hc]; rfl)).2.1
  | signalsNobody c hj hc hq h => exact absurd hc (A.is_core W hj (by rw [hc]; rfl)).2.1
  | signalled c next hj hc h =>
    have hes := hnone (by rw [h]; rfl)
    obtain ⟨hlimit, -, hq⟩ := A.is_core W hj (by rw [hc]; rfl)
    refine Or.inl ⟨.unlock c hj hlimit (by rw [h]; simp [State.setCallback]) ?_, by simp [hes]⟩
    rw [h, ← hq]
    exact (Still.schedule next : Still reaper j _ _).contents
  | unlocked c hj hc h =>
    obtain ⟨rfl, -, hq⟩ := A.is_core W hj (by rw [hc]; rfl)
    refine Or.inr ⟨1, Or.inl (by decide), fun t ht => Or.inl ?_⟩
    rw [h.contents] at ht
    rw [← hq]
    exact ht

end Notifying

theorem countP_after {log : List (Event C N I J)} {l₁ l₂ before : List (Event C N I J)}
    (hlog : log = before ++ .notifies j limit :: new) (h : log = l₁ ++ .releases j t :: l₂)
    (ht : .releases j t ∉ new) :
    l₁.countP (Event.notifiesOn j) < log.countP (Event.notifiesOn j) := by
  have hsplit : before ++ .notifies j limit :: new = l₁ ++ .releases j t :: l₂ := hlog.symm.trans h
  rcases List.append_eq_append_iff.mp hsplit with ⟨a, rfl, ha⟩ | ⟨b, rfl, hb⟩
  · -- the lock was released after the notification
    have hm : (.releases j t : Event C N I J) ∈ .notifies j limit :: new := by
      rw [ha]
      simp
    rcases List.mem_cons.mp hm with hm | hm
    · cases hm
    · exact absurd hm ht
  · rw [hlog, List.append_assoc, List.countP_append]
    have hpos : 0 < (b ++ .notifies j limit :: new).countP (Event.notifiesOn j) := by
      rw [List.countP_pos_iff]
      exact ⟨.notifies j limit, by simp, by simp [Event.notifiesOn]⟩
    omega

theorem lt_of_countP {a b : Nat} (h : a < b) (hb : b < 2 ^ 64) :
    BitVec.ofNat 64 a < BitVec.ofNat 64 b := by
  rw [BitVec.lt_def, BitVec.toNat_ofNat, BitVec.toNat_ofNat, Nat.mod_eq_of_lt hb,
    Nat.mod_eq_of_lt (Nat.lt_trans h hb)]
  exact h

theorem Moves.log (h : Moves reaper j s s') : ∃ es, s'.log = s.log ++ es := by
  have hstill : ∀ {s₁ : State C N I J} {es : List (Event C N I J)}, Still reaper j s₁ s' →
      s₁.log = s.log ++ es → ∃ es, s'.log = s.log ++ es := by
    intro s₁ es h h₁
    obtain ⟨es', hlog, -⟩ := h.log
    exact ⟨es ++ es', by rw [hlog, h₁, List.append_assoc]⟩
  cases h with
  | still h => exact hstill h (List.append_nil _).symm
  | locks t hl h => exact hstill h (List.append_nil _).symm
  | unlocks t hl hk h => exact hstill h (List.append_nil _).symm
  | releases t hl hk h => exact ⟨_, by rw [h]; rfl⟩
  | joins c me e hl hc hk he hq h => exact hstill h rfl
  | notifies t limit hl hk h => exact ⟨_, by rw [h]; rfl⟩
  | takes t limit i next rest hk hi hq hq' h => exact ⟨[], by rw [h, List.append_nil]; rfl⟩
  | ends t limit i hk hi h => exact ⟨_, by rw [h]; rfl⟩
  | rouses t limit i next hk h => exact ⟨[], by rw [h, List.append_nil]; rfl⟩
  | puts c me hj hl hc h => exact hstill h (List.append_nil _).symm
  | signals c next rest hj hc hq hq' h => exact ⟨_, by rw [h]; rfl⟩
  | signalsNobody c hj hc hq h => exact ⟨_, by rw [h]; rfl⟩
  | signalled c next hj hc h => exact ⟨[], by rw [h, List.append_nil]; rfl⟩
  | unlocked c hj hc h => exact hstill h rfl

/-- A thread that joins the queue later has released the lock later: the epoch it knows is the
epoch there is. -/
theorem Notified.move {before : List (Event C N I J)} (A : Notified j limit front new s)
    (W : Watched reaper j s) (h : Moves reaper j s s')
    (hlog : s.log = before ++ .notifies j limit :: new)
    (hwrap : s.log.countP (Event.notifiesOn j) < 2 ^ 64) : Notified j limit front (new ++ es) s' := by
  obtain ⟨k, hk, hfront⟩ := A
  have hsub : (∀ t ∈ s'.queues.contents (.queue j), t ∈ s.queues.contents (.queue j)) →
      Notified j limit front (new ++ es) s' := by
    intro hsub
    refine ⟨k, hk, ?_⟩
    intro t ht
    rcases hfront t (hsub t ht) with h | h
    · exact Or.inl h
    · exact Or.inr (List.mem_append_left es h)
  have hsame : s'.queues.contents (.queue j) = s.queues.contents (.queue j) →
      Notified j limit front (new ++ es) s' := fun h => hsub (by rw [h]; exact fun t ht => ht)
  cases h with
  | still h => exact hsame h.contents
  | locks t hl h => exact hsame h.contents
  | unlocks t hl hk h => exact hsame h.contents
  | releases t hl hk h => exact hsame (by rw [h]; rfl)
  | joins c me e hl hc hk' he hq h =>
    refine ⟨k, hk, ?_⟩
    intro t ht
    rw [h.contents, hq, List.mem_append, List.mem_singleton] at ht
    rcases ht with ht | rfl
    · rcases hfront t ht with h | h
      · exact Or.inl h
      · exact Or.inr (List.mem_append_left es h)
    · refine Or.inr (List.mem_append_left es ?_)
      -- it released the lock before the notification, so its epoch is an older one
      by_contra hnew
      obtain ⟨l₁, l₂, hl, -, hold⟩ := W.waits t e hk'
      have hlt := lt_of_countP (countP_after hlog hl hnew) hwrap
      rw [← hold, ← W.epoch, he] at hlt
      exact BitVec.lt_irrefl _ hlt
  | notifies t limit' hl hk h => exact hsame (by rw [h]; rfl)
  | takes t limit' i next rest hk hi hq hq' h =>
    refine hsub ?_
    intro u hu
    rw [h] at hu
    replace hu : u ∈ (s.remove (.queue j)).2.queues.contents (.queue j) := hu
    rw [hq'] at hu
    rw [hq]
    exact List.mem_cons_of_mem next hu
  | ends t limit' i hk hi h => exact hsame (by rw [h]; rfl)
  | rouses t limit' i next hk h =>
    refine hsame ?_
    rw [h]
    exact (Still.schedule next : Still reaper j _ _).contents
  | puts c me hj hl hc h => exact hsame h.contents
  | signals c next rest hj hc hq hq' h =>
    refine hsub ?_
    intro u hu
    rw [h] at hu
    replace hu : u ∈ (s.remove (.queue j)).2.queues.contents (.queue j) := hu
    rw [hq'] at hu
    rw [hq]
    exact List.mem_cons_of_mem next hu
  | signalsNobody c hj hc hq h => exact hsame (by rw [h]; rfl)
  | signalled c next hj hc h =>
    refine hsame ?_
    rw [h]
    exact (Still.schedule next : Still reaper j _ _).contents
  | unlocked c hj hc h => exact hsame h.contents

theorem After.move {before : List (Event C N I J)} (A : After reaper j limit front new s)
    (W : Watched reaper j s) (h : Moves reaper j s s') (hes : s'.log = s.log ++ es)
    (hlog : s.log = before ++ .notifies j limit :: new)
    (hwrap : s.log.countP (Event.notifiesOn j) < 2 ^ 64) : After reaper j limit front (new ++ es) s' := by
  rcases A with ⟨A, hnot⟩ | A
  · rcases A.move W h hes with ⟨A', hnot'⟩ | A'
    · exact Or.inl ⟨A', by simp [hnot, hnot']⟩
    · exact Or.inr A'
  · exact Or.inr (A.move W h hlog hwrap)

/-- The step that notifies. -/
theorem After.start (h : Moves reaper j s s') (hlog : s'.log = s.log ++ [.notifies j limit]) :
    After reaper j limit (s.queues.contents (.queue j)) [] s' := by
  have hno : ∀ {s₁ : State C N I J} {es : List (Event C N I J)}, Still reaper j s₁ s' →
      s₁.log = s.log ++ es → (.notifies j limit) ∉ es → False := by
    intro s₁ es h h₁ hn
    obtain ⟨es', hlog', hes'⟩ := h.log
    rw [h₁, hlog, List.append_assoc, List.append_cancel_left_eq] at hlog'
    have hm : (.notifies j limit : Event C N I J) ∈ es ++ es' := by rw [← hlog']; simp
    rcases List.mem_append.mp hm with hm | hm
    · exact hn hm
    · have := hes' _ hm
      simp [Event.onCond] at this
  have hne : ∀ {k : List (Event C N I J)}, s'.log = s.log ++ k → k = [.notifies j limit] := by
    intro k h
    rw [hlog, List.append_cancel_left_eq] at h
    exact h.symm
  -- a move logs what it does, and only two of them log this notification
  cases h with
  | still h => exact (hno h (List.append_nil _).symm (by simp)).elim
  | locks t hl h => exact (hno h (List.append_nil _).symm (by simp)).elim
  | unlocks t hl hk h => exact (hno h (List.append_nil _).symm (by simp)).elim
  | releases t hl hk h =>
    have := hne (k := [.releases j t]) (by rw [h]; rfl)
    simp at this
  | joins c me e hl hc hk he hq h => exact (hno h rfl (by simp)).elim
  | notifies t limit' hl hk h =>
    have := hne (k := [.notifies j limit']) (by rw [h]; rfl)
    simp only [List.cons.injEq, Event.notifies.injEq, true_and, and_true] at this
    subst this
    refine Or.inl ⟨.loop t 0 (by rw [h]; simp [State.setCall]) ?_, by simp⟩
    rw [h]
    rfl
  | takes t limit' i next rest hk hi hq hq' h =>
    have := hne (k := []) (by rw [h, List.append_nil]; rfl)
    cases this
  | ends t limit' i hk hi h =>
    have := hne (k := [.notified j]) (by rw [h]; rfl)
    simp at this
  | rouses t limit' i next hk h =>
    have := hne (k := []) (by rw [h, List.append_nil]; rfl)
    cases this
  | puts c me hj hl hc h => exact (hno h (List.append_nil _).symm (by simp)).elim
  | signals c next rest hj hc hq hq' h =>
    have := hne (k := [.notifies j 1]) (by rw [h]; rfl)
    simp only [List.cons.injEq, Event.notifies.injEq, true_and, and_true] at this
    refine Or.inl ⟨.signalled c next hj this.symm (by rw [h]; simp [State.setCallback]) ?_, by simp⟩
    rw [h]
    show (s.remove (.queue j)).2.queues.contents (.queue j) = _
    rw [hq', hq]
    rfl
  | signalsNobody c hj hc hq h =>
    have := hne (k := [.notifies j 1]) (by rw [h]; rfl)
    simp only [List.cons.injEq, Event.notifies.injEq, true_and, and_true] at this
    refine Or.inl ⟨.unlock c hj this.symm (by rw [h]; simp [State.setCallback]) ?_, by simp⟩
    rw [h, hq]
    exact hq
  | signalled c next hj hc h =>
    have := hne (k := []) (by rw [h, List.append_nil]; rfl)
    cases this
  | unlocked c hj hc h => exact (hno h rfl (by simp)).elim

/-! ## Every run

The lemmas above are about queues; `no_signal_missed` is about threads. A thread that was in the
front of the queue at the notification is roused: it is not in the queue, and if its callback is
still to run it knows an older epoch and will schedule it. It stays so until it waits anew.
`Roused` is said in terms of places (`Shows`), so that the thread is not lost on the way either. -/

/-- Where the thread is, as far as its last wait on `j` goes, once it has been notified: not in the
queue; its callback, if it is pending, knows an older epoch and will schedule it; and as long as it
is in that wait its one place is no queue but the ready queue. -/
structure Roused (s : State C N I J) (j : J) (n : N) : Prop where
  queue : .made n ∉ s.queues.contents (.queue j)
  pending : ∀ c e, s.callback c = some (.run (.wait j e) (.made n)) → e < s.epoch j
  ready : ∀ e, s.call (.made n) = .wait j e →
    ∃ p, (∀ p', s.Shows s.queues.contents n p' ↔ p' = p) ∧ ∀ q, p = .line q → q = .readyQ

/-- From `s` on, once the notification is through, the thread is roused until it waits anew. The
epoch must not have wrapped. -/
def StaysRoused (reaper : J) (s : State C N I J) (j : J) (n : N) : Prop :=
  ∀ labels s' new, runs (step reaper) s labels = some s' → s'.log = s.log ++ new →
    .notified j ∈ new → .releases j (.made n) ∉ new →
    s'.log.countP (Event.notifiesOn j) < 2 ^ 64 → Roused s' j n

/-- The thread has given up the lock in `wait()` on `j` and does not have it back. -/
def Unfinished (s : State C N I J) (j : J) (n : N) : Prop :=
  (∃ e, s.call (.made n) = .wait j e) ∨ s.call (.made n) = .relock j

/-- The pending callback of a roused thread does schedule it. -/
theorem Roused.reschedules {n : N} {e : BitVec 64} (h : Roused s j n)
    (hc : s.callback c = some (.run (.wait j e) (.made n)))
    (hs : s.callbackStep reaper c (.run (.wait j e) (.made n)) = some s') :
    s'.callback c = some (.missed j (.made n)) := by
  have hlt := h.pending c e hc
  dsimp only [State.callbackStep, State.waitAgain] at hs
  split at hs
  · cases hs
  split at hs
  · cases hs
  split at hs
  · cases hs
  split at hs
  · rename_i he
    rw [he] at hlt
    exact absurd hlt (BitVec.lt_irrefl _)
  · injection hs with hs
    rw [← hs]
    simp [State.setCallback]

theorem Sound.shows {line : QueueId I J → List N} {place : N → Place (Slot C N) (QueueId I J)}
    (S : Sound reaper s line place) (n : N) (p : Place (Slot C N) (QueueId I J)) :
    s.Shows s.queues.contents n p ↔ p ≠ .nowhere ∧ place n = p := by
  cases p with
  | nowhere => simp [State.Shows]
  | slot p => simp [State.Shows, S.places.placed.inSlot]
  | line q => simp [State.Shows, S.places.threaded.contents_eq, S.places.placed.inLine]

/-- What the wait of a thread leaves as its place, once the queue of the condition is ruled out. -/
theorem Sound.roused {line : QueueId I J → List N} {place : N → Place (Slot C N) (QueueId I J)}
    (S : Sound reaper s line place) (W : Watched reaper j s) {before : List (Event C N I J)} {n : N}
    (hlog : s.log = before ++ .notifies j limit :: new) (hn : .releases j (.made n) ∉ new)
    (hwrap : s.log.countP (Event.notifiesOn j) < 2 ^ 64)
    (hq : .made n ∉ s.queues.contents (.queue j)) : Roused s j n := by
  refine ⟨hq, ?_, ?_⟩
  · intro c e hc
    have hk : s.call (.made n) = .wait j e :=
      S.control.fits _ (.wait j e) (by rw [S.kept.callback c _ n hc rfl]; rfl)
    obtain ⟨l₁, l₂, hl, -, rfl⟩ := W.waits _ e hk
    rw [W.epoch]
    exact lt_of_countP (countP_after hlog hl hn) hwrap
  · intro e hk
    have hlive : s.live n = true := by
      cases hv : s.live n with
      | true => rfl
      | false => rcases S.kept.dead n hv with h | h <;> rw [hk] at h <;> cases h
    have hne := (S.places.live n).mp hlive
    refine ⟨place n, ?_, ?_⟩
    · intro p
      rw [S.shows]
      constructor
      · exact fun h => h.2.symm
      · rintro rfl
        exact ⟨hne, rfl⟩
    · intro q hp
      have hm := (S.places.placed.inLine q n).mpr hp
      have hkept := S.kept.queue q n hm
      cases q with
      | readyQ => rfl
      | zombies =>
        have hf : s.call (.made n) = .stopping := S.control.fits _ .stop (by
          rw [show s.block (.made n) = .away .stop from hkept]; rfl)
        rw [hk] at hf
        cases hf
      | waiting i =>
        have hf : s.call (.made n) = .down i := S.control.fits _ (.down i) (by
          rw [show s.block (.made n) = .away (.down i) from hkept]; rfl)
        rw [hk] at hf
        cases hf
      | queue j' =>
        obtain ⟨e', hb⟩ := hkept
        have hf : s.call (.made n) = .wait j' e' := S.control.fits _ (.wait j' e') (by rw [hb]; rfl)
        rw [hk] at hf
        injection hf with hj
        subst hj
        refine absurd ?_ hq
        rw [S.places.threaded.contents_eq]
        simpa using hm

/-- The run after the notification. -/
theorem After.runs {before : List (Event C N I J)} (h : Ok reaper s) (W : Watched reaper j s)
    (hlog : s.log = before ++ [.notifies j limit]) (A : After reaper j limit front [] s)
    {labels : List (Label C N I J)} (hr : runs (step reaper) s labels = some s') :
    Ok reaper s' ∧ Watched reaper j s' ∧ ∃ new, s'.log = before ++ .notifies j limit :: new ∧
      (s'.log.countP (Event.notifiesOn j) < 2 ^ 64 → After reaper j limit front new s') := by
  refine runs_inv (fun s => Ok reaper s ∧ Watched reaper j s ∧
    ∃ new, s.log = before ++ .notifies j limit :: new ∧
      (s.log.countP (Event.notifiesOn j) < 2 ^ 64 → After reaper j limit front new s)) ?_
    ⟨h, W, [], hlog, fun _ => A⟩ (RunOk.of_forall (fun _ _ => trivial) _ _) hr
  intro s l s' ⟨h, W, new, hlog, A⟩ _ hs
  obtain ⟨line, place, S⟩ := h
  have hm := S.moves hs j
  obtain ⟨es, hes⟩ := hm.log
  refine ⟨Ok.step ⟨line, place, S⟩ hs, W.move hm, new ++ es, by rw [hes, hlog]; simp, ?_⟩
  intro hwrap
  have hwrap' : s.log.countP (Event.notifiesOn j) < 2 ^ 64 := by
    rw [hes, List.countP_append] at hwrap
    omega
  exact (A hwrap').move W hm hes hlog hwrap'

theorem Watched.runs {next : TCB C N → Option (TCB C N)} {count : I → BitVec 32}
    {labels : List (Label C N I J)} (hr : runs (step reaper) (State.init next count) labels = some s)
    (j : J) : Ok reaper s ∧ Watched reaper j s := by
  refine runs_inv (fun s => Ok reaper s ∧ Watched reaper j s) ?_
    ⟨Ok.init reaper next count, Watched.init next count⟩ (RunOk.of_forall (fun _ _ => trivial) _ _) hr
  intro s l s' ⟨h, W⟩ _ hs
  obtain ⟨line, place, S⟩ := h
  exact ⟨Ok.step ⟨line, place, S⟩ hs, W.move (S.moves hs j)⟩

/-- A thread that the notification has taken out of the queue is roused. -/
theorem stays_roused {before : List (Event C N I J)} (h : Ok reaper s) (W : Watched reaper j s)
    (hlog : s.log = before ++ [.notifies j limit]) (A : After reaper j limit front [] s) {n : N}
    (hn : ∀ k, limit.toNat ≤ k ∨ front.length ≤ k → .made n ∉ front.drop k) :
    StaysRoused reaper s j n := by
  intro labels s' new hr hnew hdone hrel hwrap
  obtain ⟨⟨line, place, S⟩, W', new', hlog', A'⟩ := A.runs h W hlog hr
  have heq : new' = new := by
    rw [hnew, hlog, List.append_assoc, List.append_cancel_left_eq] at hlog'
    exact (List.cons.inj hlog').2.symm
  subst heq
  refine S.roused W' hlog' hrel hwrap ?_
  rcases A' hwrap with ⟨-, hnot⟩ | ⟨k, hk, hq⟩
  · exact absurd hdone hnot
  · intro hm
    rcases hq _ hm with h | h
    · exact hn k hk h
    · exact hrel h

theorem length_le_of_nodup {l : List (BitVec 32)} (h : l.Nodup) : l.length ≤ 2 ^ 32 := by
  have hmap : (l.map BitVec.toFin).Nodup :=
    List.Nodup.map (fun x y hxy => BitVec.eq_of_toFin_eq hxy) h
  have := hmap.length_le_card
  rwa [List.length_map, Fintype.card_fin] at this

/-- Whatever the cores do, with threads at 32-bit addresses: no thread is twice in the queue of a
condition, or there and ready. When a notification of all is through, every thread that has not
begun another wait since is roused and stays so; when one of at least one thread is through, this
holds of one of the threads that were waiting, if there were any; all this while the epoch has not
wrapped. -/
theorem no_signal_missed (reaper : J) (next : TCB C (BitVec 32) → Option (TCB C (BitVec 32)))
    (count : I → BitVec 32) (labels : List (Label C (BitVec 32) I J)) (s : State C (BitVec 32) I J)
    (hr : runs (step reaper) (State.init next count) labels = some s) (j : J) :
    (s.queues.contents (.queue j)).Nodup ∧
    (∀ t ∈ s.queues.contents (.queue j), t ∉ s.queues.contents .readyQ) ∧
    ∀ l s₁ limit, step reaper s l = some s₁ → s₁.log = s.log ++ [.notifies j limit] →
      (limit = BitVec.allOnes 64 → ∀ n, StaysRoused reaper s₁ j n) ∧
      (0 < limit → (∃ n, Unfinished s j n) → ∃ n, Unfinished s j n ∧ StaysRoused reaper s₁ j n) := by
  obtain ⟨⟨line, place, S⟩, W⟩ := Watched.runs hr j
  have hcontents : s.queues.contents (.queue j) = (line (.queue j)).map TCB.made :=
    S.places.threaded.contents_eq _
  refine ⟨?_, ?_, ?_⟩
  · rw [S.places.threaded.contents_eq]
    exact S.places.threaded.nodup _
  · intro t ht
    rw [S.places.threaded.contents_eq] at ht ⊢
    intro h
    cases S.places.threaded.disjoint _ _ t ht h
  · intro l s₁ limit hs hlog
    have hm := S.moves hs j
    have h₁ : Ok reaper s₁ := Ok.step ⟨line, place, S⟩ hs
    have A := After.start hm hlog
    have hstay : ∀ n, (∀ k, limit.toNat ≤ k ∨ (s.queues.contents (.queue j)).length ≤ k →
        .made n ∉ (s.queues.contents (.queue j)).drop k) → StaysRoused reaper s₁ j n :=
      fun n hn => stays_roused h₁ (W.move hm) hlog A hn
    constructor
    · intro hall n
      refine hstay n ?_
      intro k hk
      have hlen : (s.queues.contents (.queue j)).length ≤ 2 ^ 32 := by
        rw [hcontents, List.length_map]
        exact length_le_of_nodup (S.places.placed.nodup _)
      have hle : (s.queues.contents (.queue j)).length ≤ k := by
        rcases hk with hk | hk
        · rw [hall] at hk
          exact Nat.le_trans hlen (Nat.le_trans (by decide) hk)
        · exact hk
      rw [List.drop_eq_nil_of_le hle]
      simp
    · intro hpos ⟨n, hn⟩
      cases hl : line (.queue j) with
      | nil =>
        refine ⟨n, hn, hstay n ?_⟩
        intro k _
        rw [hcontents, hl]
        simp
      | cons m rest =>
        -- the first of the queue is taken
        refine ⟨m, Or.inl ?_, hstay m ?_⟩
        · obtain ⟨e, hb⟩ := S.kept.queue (.queue j) m (by rw [hl]; exact List.mem_cons_self)
          exact ⟨e, S.control.fits _ (.wait j e) (by rw [hb]; rfl)⟩
        · intro k hk hmem
          have hnd := S.places.placed.nodup (.queue j)
          rw [hl] at hnd
          rw [hcontents, hl] at hk hmem
          have hk1 : 1 ≤ k := by
            rcases hk with hk | hk
            · exact Nat.le_trans (BitVec.lt_def.mp hpos) hk
            · simp only [List.map_cons, List.length_cons] at hk
              omega
          obtain ⟨k, rfl⟩ := Nat.exists_eq_add_of_le' hk1
          rw [List.map_cons, List.drop_succ_cons] at hmem
          have := List.mem_of_mem_drop hmem
          exact (List.nodup_cons.mp hnd).1 (by simpa using this)

/-- Thread 7 gives up the lock in `wait()` and is switched out; its callback is still to come on
this core when the other core has the lock. -/
def betweenRun : List (Label Bool (BitVec 32) Unit Unit) :=
  [.create false 7, .go false, .create false 8, .go false, .yield false, .go false, .go false,
    .go false, .go false, .lock false (), .wait false (), .go false, .go false, .go false, .go false,
    .lock true ()]

/-- All are notified; the callback sees it. -/
def rousedRun : List (Label Bool (BitVec 32) Unit Unit) :=
  [.go true, .unlock true (), .go false]

theorem no_signal_missed_between :
    ∃ s s₁ s' : State Bool (BitVec 32) Unit Unit,
      runs (step ()) (State.init (fun _ => none) fun _ => 0#32) betweenRun = some s ∧
      step () s (.notify true () (BitVec.allOnes 64)) = some s₁ ∧
      runs (step ()) s₁ rousedRun = some s' ∧
      s'.callback false = some (.missed () (.made 7)) ∧ Roused s' () 7 := by
  have hobs : ((runs (step ()) (State.init (fun _ => none) fun _ => 0#32) betweenRun).bind fun s =>
      (step () s (.notify true () (BitVec.allOnes 64))).bind fun s₁ =>
        (runs (step ()) s₁ rousedRun).map fun s' => (s₁.log, s'.log, s'.callback false, s.log)) =
      some ([.releases () (.made 7), .notifies () (BitVec.allOnes 64)],
        [.releases () (.made 7), .notifies () (BitVec.allOnes 64), .notified ()],
        some (.missed () (.made 7)), [.releases () (.made 7)]) := rfl
  obtain ⟨s, hs, hobs⟩ := Option.bind_eq_some_iff.mp hobs
  obtain ⟨s₁, hs₁, hobs⟩ := Option.bind_eq_some_iff.mp hobs
  obtain ⟨s', hs', hobs⟩ := Option.map_eq_some_iff.mp hobs
  injection hobs with hlog₁ hobs
  injection hobs with hlog' hobs
  injection hobs with hcb hlog
  have h := (no_signal_missed () _ _ _ s hs ()).2.2 _ s₁ _ hs₁ (by rw [hlog₁, hlog]; rfl)
  refine ⟨s, s₁, s', hs, hs₁, hs', hcb, h.1 rfl 7 rousedRun s' [.notified ()] hs' ?_ ?_ ?_ ?_⟩
  · rw [hlog', hlog₁]
    rfl
  · simp
  · simp
  · rw [hlog']
    decide

/-! ## An epoch that wraps

A run that shows the bound to be needed. 2^64 notifications cannot be run by evaluation, so the
notification that finds nobody is a lemma with its effect on the epoch alone, and
`notify_nobody_again` repeats it by induction as often as one likes. -/

theorem go_running (hr : s.running c = some t) : s.go reaper c = s.callStep c t (s.call t) := by
  obtain ⟨hc, hb, rfl⟩ := running_iff.mp hr
  unfold State.go
  rw [hc]
  dsimp only
  rw [hb]

/-- One notification that finds nobody. -/
theorem notify_nobody (hf : s.free c = some t) (hl : s.lock j = some (.thread t))
    (hq : (s.queues.remove (.queue j)).1 = none) (hpos : 0 < limit) :
    runs (step reaper) s [.notify c j limit, .go c] = some
      { s with epoch := Function.update s.epoch j (s.epoch j + 1),
               log := s.log ++ [.notifies j limit, .notified j] } := by
  obtain ⟨hr, hk⟩ := free_iff.mp hf
  obtain ⟨hc, hb, rfl⟩ := running_iff.mp hr
  have h₁ : step reaper s (.notify c j limit) = some
      (((s.setEpoch j (s.epoch j + 1)).emit [.notifies j limit]).setCall (s.stack c)
        (.notify j limit 0)) := by
    show (s.free c).bind _ = _
    rw [hf]
    show s.notify (s.stack c) j limit = _
    rw [State.notify, if_pos hl]
  refine runs_cons.mpr ⟨_, h₁, runs_cons.mpr ⟨_, ?_, rfl⟩⟩
  have hr₁ : (((s.setEpoch j (s.epoch j + 1)).emit [.notifies j limit]).setCall (s.stack c)
      (.notify j limit 0)).running c = some (s.stack c) := hr
  have hk₁ : (((s.setEpoch j (s.epoch j + 1)).emit [.notifies j limit]).setCall (s.stack c)
      (.notify j limit 0)).call (s.stack c) = .notify j limit 0 := by simp [State.setCall]
  show State.go reaper _ c = _
  rw [go_running hr₁, hk₁]
  rw [State.callStep, if_pos hpos]
  split
  · rename_i n s₁ hs
    have hnext : (s.queues.remove (.queue j)).1 = some n := congrArg Prod.fst hs
    rw [hq] at hnext
    cases hnext
  · simp only [State.emit, State.setCall, State.setEpoch, Function.update_idem, List.append_assoc,
      List.cons_append, List.nil_append]
    rw [← hk, Function.update_eq_self]

/-- As many as one likes: nothing else changes. -/
theorem notify_nobody_again (c : C) (t : TCB C N) (reaper : J) (hpos : 0 < limit) (k : Nat) :
    ∀ s : State C N I J, s.free c = some t → s.lock j = some (.thread t) →
      (s.queues.remove (.queue j)).1 = none →
      ∃ es, runs (step reaper) s (List.replicate k [.notify c j limit, .go c]).flatten = some
          { s with epoch := Function.update s.epoch j (s.epoch j + BitVec.ofNat 64 k),
                   log := s.log ++ es } ∧
        ∀ t, .releases j t ∉ es := by
  induction k with
  | zero =>
    intro s _ _ _
    exact ⟨[], by simp [Lib.runs], by simp⟩
  | succ k ih =>
    intro s hf hl hq
    have h₁ : runs (step reaper) s _ = _ := notify_nobody hf hl hq hpos
    obtain ⟨es, hes, hno⟩ := ih { s with epoch := Function.update s.epoch j (s.epoch j + 1),
                                         log := s.log ++ [.notifies j limit, .notified j] } hf hl hq
    refine ⟨[.notifies j limit, .notified j] ++ es, ?_, by simp [hno]⟩
    rw [List.replicate_succ, List.flatten_cons, runs_append, h₁]
    show runs (step reaper) _ _ = _
    rw [hes]
    simp only [Function.update_idem, Function.update_self, List.append_assoc]
    rw [Nat.add_comm k 1, BitVec.ofNat_add, ← BitVec.add_assoc]
    rfl

/-- What the two cores are about to do after `betweenRun`. -/
theorem between_shows : ∃ s : State Bool (BitVec 32) Unit Unit,
    runs (step ()) (State.init (fun _ => none) fun _ => 0#32) betweenRun = some s ∧
      s.free true = some (.idle true) ∧ s.lock () = some (.thread (.idle true)) ∧
      (s.queues.remove (.queue ())).1 = none ∧ s.epoch () = 0 ∧
      s.callback false = some (.run (.wait () 0) (.made 7)) ∧
      s.stack false = .made 8 ∧ s.block (.made 8) = .outside ∧
      s.queues.joined (.queue ()) = [] ∧ s.queues.left (.queue ()) = [] := by
  have hobs : ((runs (step ()) (State.init (fun _ => none) fun _ => 0#32) betweenRun).map
      fun s : State Bool (BitVec 32) Unit Unit =>
        (s.free true, s.lock (), (s.queues.remove (.queue ())).1, s.epoch (), s.callback false,
          s.stack false, s.block (.made 8), s.queues.joined (.queue ()), s.queues.left (.queue ()))) =
      some (some (.idle true), some (.thread (.idle true)), none, 0,
        some (.run (.wait () 0) (.made 7)), .made 8, .outside, [], []) := rfl
  obtain ⟨s, hs, hobs⟩ := Option.map_eq_some_iff.mp hobs
  simp only [Prod.mk.injEq] at hobs
  exact ⟨s, hs, hobs⟩

/-- The other core unlocks, and the callback finds the epoch it knows. -/
theorem joins_late {s : State Bool (BitVec 32) Unit Unit} (hf : s.free true = some (.idle true))
    (hl : s.lock () = some (.thread (.idle true)))
    (hc : s.callback false = some (.run (.wait () 0) (.made 7))) (hst : s.stack false = .made 8)
    (hb : s.block (.made 8) = .outside) (hjoined : s.queues.joined (.queue ()) = [])
    (hleft : s.queues.left (.queue ()) = []) (epoch : Unit → BitVec 64) (he : epoch () = 0)
    (log : List (Event Bool (BitVec 32) Unit Unit)) :
    ∃ s', runs (step ()) { s with epoch := epoch, log := log } [.unlock true (), .go false] = some s' ∧
      s'.log = log ++ [.joins () (.made 7)] ∧ s'.queues.contents (.queue ()) = [.made 7] := by
  obtain ⟨hr, hk⟩ := free_iff.mp hf
  have h₁ : step () { s with epoch := epoch, log := log } (.unlock true ()) =
      some (State.setLock { s with epoch := epoch, log := log } () none) := by
    show (s.running true).bind _ = _
    rw [hr]
    show State.unlock _ _ _ = _
    unfold State.unlock
    rw [show ({ s with epoch := epoch, log := log } : State Bool (BitVec 32) Unit Unit).call
      (.idle true) = .none from hk]
    exact if_pos hl
  refine ⟨_, runs_cons.mpr ⟨_, h₁, runs_cons.mpr ⟨(((State.setLock { s with epoch := epoch, log := log }
    () none).add (.queue ()) (.made 7)).emit [.joins () (.made 7)]).setCallback false none, ?_, rfl⟩⟩,
    rfl, ?_⟩
  · show State.go () _ false = _
    unfold State.go
    rw [show (State.setLock { s with epoch := epoch, log := log } () none).callback false =
      some (.run (.wait () 0) (.made 7)) from hc]
    show (State.setLock { s with epoch := epoch, log := log } () none).waitAgain false () 0
      (.made 7) = _
    unfold State.waitAgain
    simp only [TCB.isIdle_made, Bool.false_eq_true, if_false]
    rw [show (State.setLock { s with epoch := epoch, log := log } () none).lock () = none
      by simp [State.setLock]]
    dsimp only
    rw [show (State.setLock { s with epoch := epoch, log := log } () none).epoch () = 0 from he,
      if_neg (BitVec.lt_irrefl 0), if_pos rfl]
    unfold State.resume
    rw [show (((State.setLock { s with epoch := epoch, log := log } () none).add (.queue ())
      (.made 7)).emit [.joins () (.made 7)]).stack false = .made 8 from hst]
    rw [show (((State.setLock { s with epoch := epoch, log := log } () none).add (.queue ())
      (.made 7)).emit [.joins () (.made 7)]).block (.made 8) = .outside from hb]
  · show (Function.update s.queues.joined (.queue ()) (s.queues.joined (.queue ()) ++ [.made 7])
      (.queue ())).drop (s.queues.left (.queue ())).length = _
    rw [Function.update_self, hjoined, hleft]
    rfl

/-- The thread of `betweenRun` is in the queue on account of a wait that gave up the lock before
2^64 notifications of all: its callback finds the epoch it knows. -/
theorem epoch_wraps :
    ¬ ∀ (labels : List (Label Bool (BitVec 32) Unit Unit)) (s : State Bool (BitVec 32) Unit Unit),
      runs (step ()) (State.init (fun _ => none) fun _ => 0#32) labels = some s →
      ∀ l s₁, step () s l = some s₁ → s₁.log = s.log ++ [.notifies () (BitVec.allOnes 64)] →
      ∀ n labels' s' new, runs (step ()) s₁ labels' = some s' → s'.log = s₁.log ++ new →
        .notified () ∈ new → .releases () (.made n) ∉ new →
        .made n ∉ s'.queues.contents (.queue ()) := by
  intro h
  obtain ⟨s, hs, hf, hl, hq, he, hc, hst, hb, hjoined, hleft⟩ := between_shows
  have hpos : 0 < BitVec.allOnes 64 := by decide
  have h₁ : runs (step ()) s _ = _ := notify_nobody hf hl hq hpos
  obtain ⟨s₁, hs₁, h₁⟩ := runs_cons.mp h₁
  have hlog₁ : s₁.log = s.log ++ [.notifies () (BitVec.allOnes 64)] := by
    replace hs₁ : (s.free true).bind _ = some s₁ := hs₁
    rw [hf] at hs₁
    replace hs₁ : s.notify (.idle true) () (BitVec.allOnes 64) = some s₁ := hs₁
    rw [State.notify, if_pos hl] at hs₁
    injection hs₁ with hs₁
    rw [← hs₁]
    rfl
  obtain ⟨k, hk⟩ : ∃ k, (0 : BitVec 64) + 1 + BitVec.ofNat 64 k = 0 := ⟨2 ^ 64 - 1, by decide⟩
  obtain ⟨es, hes, hno⟩ := notify_nobody_again true (.idle true) () hpos k
    { s with epoch := Function.update s.epoch () (s.epoch () + 1),
             log := s.log ++ [.notifies () (BitVec.allOnes 64), .notified ()] } hf hl hq
  have hepoch : s.epoch () + 1 + BitVec.ofNat 64 k = 0 := by
    rw [he, hk]
  have hes' : runs (step ())
      { s with epoch := Function.update s.epoch () (s.epoch () + 1),
               log := s.log ++ [.notifies () (BitVec.allOnes 64), .notified ()] }
      (List.replicate k [.notify true () (BitVec.allOnes 64), .go true]).flatten =
      some { s with epoch := Function.update (Function.update s.epoch () (s.epoch () + 1)) () 0,
                    log := s.log ++ [.notifies () (BitVec.allOnes 64), .notified ()] ++ es } := by
    rw [hes]
    simp only [Function.update_self, hepoch]
  obtain ⟨s', hs', hlog', hcontents⟩ := joins_late hf hl hc hst hb hjoined hleft
    (Function.update (Function.update s.epoch () (s.epoch () + 1)) () 0) rfl
    (s.log ++ [.notifies () (BitVec.allOnes 64), .notified ()] ++ es)
  refine h betweenRun s hs _ s₁ hs₁ hlog₁ 7
    ([.go true] ++ ((List.replicate k [.notify true () (BitVec.allOnes 64), .go true]).flatten ++
      [.unlock true (), .go false])) s'
    (.notified () :: es ++ [.joins () (.made 7)]) ?_ ?_ ?_ ?_ ?_
  · rw [runs_append, h₁]
    show runs (step ()) _ _ = _
    rw [runs_append, hes']
    exact hs'
  · rw [hlog', hlog₁]
    simp
  · simp
  · simp [hno]
  · rw [hcontents]
    simp

end OsKernel.Threads
