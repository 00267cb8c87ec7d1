import OsKernel.Threads.Sound

/-!
# What a step can do to a condition

`Still` is a step that has nothing to do with condition `j`: neither its queue nor its lock
nor its epoch changes, and nobody begins or ends a notification. `Moves` lists the other
steps, and `Sound.moves` says that there are no more.

It is the inversion of the step function from the point of view of one condition, and is the
only proof about conditions that goes through all the labels. What follows in
`Threads/Condition.lean` has one case for each constructor of `Moves`, and would not change if
a step were added that is `Still`.

The reaper's condition is one more condition, with steps of its own: `stop()` notifies it from
a callback (`puts`), without `notify()` being called by a thread.
-/

set_option autoImplicit false
set_option linter.unusedSectionVars false

namespace OsKernel.Threads

open Lib

variable {C N I J : Type} [DecidableEq C] [DecidableEq N] [DecidableEq I] [DecidableEq J]

namespace Event

/-- Something that happens to condition `j`. -/
def onCond (j : J) : Event C N I J → Bool
  | releases j' _ | joins j' _ | notifies j' _ | notified j' => j' = j
  | _ => false

def notifiesOn (j : J) : Event C N I J → Bool
  | notifies j' _ => j' = j
  | _ => false

theorem notifiesOn_of_not {j : J} {e : Event C N I J} (h : e.onCond j = false) :
    e.notifiesOn j = false := by
  cases e <;> simp_all [onCond, notifiesOn]

end Event

/-- In `notify()` on `j`, which keeps the lock. -/
def Call.notifying (j : J) : Call C N I J → Bool
  | notify j' _ _ | rouse j' _ _ _ => j' = j
  | _ => false

def Call.waiting (j : J) : Call C N I J → Bool
  | wait j' _ => j' = j
  | _ => false

/-- In `reaper.put()`, which keeps the lock of the reaper. -/
def signals : Option (Callback C N I J) → Bool
  | some .notify | some (.rouse _) | some .unlock => true
  | _ => false

variable {s s' s'' : State C N I J} {reaper j : J} {c : C} {t : TCB C N}

/-! ## Steps that have nothing to do with a condition

Most steps of the system leave a given condition alone: its queue, its lock and its epoch, who is
in the middle of a notification and who waits, and its events in the log. `Still` is all of this
at once, and composes, so a step that is made of several updates is still if each is. -/

structure Still (reaper j : J) (s s' : State C N I J) : Prop where
  contents : s'.queues.contents (.queue j) = s.queues.contents (.queue j)
  lock : s'.lock j = s.lock j
  epoch : s'.epoch j = s.epoch j
  log : ∃ es, s'.log = s.log ++ es ∧ ∀ e ∈ es, e.onCond j = false
  call : ∀ t, s'.call t = s.call t ∨ ((s.call t).notifying j = false ∧
    (s'.call t).notifying j = false ∧ (s'.call t).waiting j = false)
  callback : reaper = j → ∀ c, s'.callback c = s.callback c ∨
    (signals (s.callback c) = false ∧ signals (s'.callback c) = false)

namespace Still

theorem keep (hq : s'.queues.contents (.queue j) = s.queues.contents (.queue j))
    (hl : s'.lock j = s.lock j) (he : s'.epoch j = s.epoch j) (hlog : s'.log = s.log)
    (hcall : s'.call = s.call) (hcb : s'.callback = s.callback) : Still reaper j s s' :=
  ⟨hq, hl, he, ⟨[], by simp [hlog], by simp⟩, fun t => Or.inl (by rw [hcall]),
    fun _ c => Or.inl (by rw [hcb])⟩

theorem refl (s : State C N I J) : Still reaper j s s := keep rfl rfl rfl rfl rfl rfl

theorem trans (h : Still reaper j s s') (h' : Still reaper j s' s'') : Still reaper j s s'' := by
  obtain ⟨es, hlog, hes⟩ := h.log
  obtain ⟨es', hlog', hes'⟩ := h'.log
  refine ⟨h'.contents.trans h.contents, h'.lock.trans h.lock, h'.epoch.trans h.epoch,
    ⟨es ++ es', by rw [hlog', hlog, List.append_assoc], ?_⟩, ?_, ?_⟩
  · intro e he
    rcases List.mem_append.mp he with he | he
    · exact hes e he
    · exact hes' e he
  · intro t
    rcases h.call t with h₁ | ⟨h₁, h₂, h₃⟩
    · rcases h'.call t with h₄ | ⟨h₄, h₅, h₆⟩
      · exact Or.inl (h₄.trans h₁)
      · exact Or.inr ⟨by rw [← h₁]; exact h₄, h₅, h₆⟩
    · rcases h'.call t with h₄ | ⟨h₄, h₅, h₆⟩
      · exact Or.inr ⟨h₁, by rw [h₄]; exact h₂, by rw [h₄]; exact h₃⟩
      · exact Or.inr ⟨h₁, h₅, h₆⟩
  · intro hj c
    rcases h.callback hj c with h₁ | ⟨h₁, h₂⟩
    · rcases h'.callback hj c with h₄ | ⟨h₄, h₅⟩
      · exact Or.inl (h₄.trans h₁)
      · exact Or.inr ⟨by rw [← h₁]; exact h₄, h₅⟩
    · rcases h'.callback hj c with h₄ | ⟨h₄, h₅⟩
      · exact Or.inr ⟨h₁, by rw [h₄]; exact h₂⟩
      · exact Or.inr ⟨h₁, h₅⟩

theorem setCall {k : Call C N I J} (hold : (s.call t).notifying j = false)
    (hnew : k.notifying j = false) (hw : k.waiting j = false) : Still reaper j s (s.setCall t k) := by
  refine ⟨rfl, rfl, rfl, ⟨[], by simp [State.setCall], by simp⟩, ?_, fun _ _ => Or.inl rfl⟩
  intro u
  by_cases hu : u = t
  · subst hu
    refine Or.inr ⟨hold, ?_, ?_⟩
    · simpa [State.setCall] using hnew
    · simpa [State.setCall] using hw
  · exact Or.inl (Function.update_of_ne hu _ _)

theorem setCallback {o : Option (Callback C N I J)}
    (hold : reaper = j → signals (s.callback c) = false) (hnew : reaper = j → signals o = false) :
    Still reaper j s (s.setCallback c o) := by
  refine ⟨rfl, rfl, rfl, ⟨[], by simp [State.setCallback], by simp⟩, fun _ => Or.inl rfl, ?_⟩
  intro hj d
  by_cases hd : d = c
  · subst hd
    refine Or.inr ⟨hold hj, ?_⟩
    simpa [State.setCallback] using hnew hj
  · exact Or.inl (Function.update_of_ne hd _ _)

theorem emit {es : List (Event C N I J)} (hes : ∀ e ∈ es, e.onCond j = false) :
    Still reaper j s (s.emit es) :=
  ⟨rfl, rfl, rfl, ⟨es, rfl, hes⟩, fun _ => Or.inl rfl, fun _ _ => Or.inl rfl⟩

theorem schedule (tcb : TCB C N) : Still reaper j s (s.schedule tcb) := by
  refine keep ?_ rfl rfl rfl rfl rfl
  unfold State.schedule
  split
  · rfl
  · exact Queues.contents_add_ne tcb (by simp)

theorem add {q : QueueId I J} (hq : QueueId.queue j ≠ q) : Still reaper j s (s.add q t) :=
  keep (Queues.contents_add_ne t hq) rfl rfl rfl rfl rfl

theorem remove {q : QueueId I J} (hq : QueueId.queue j ≠ q) : Still reaper j s (s.remove q).2 :=
  keep (Queues.contents_remove_ne hq) rfl rfl rfl rfl rfl

theorem setLock {j' : J} (h : j ≠ j') (o : Option (Holder C N)) : Still reaper j s (s.setLock j' o) :=
  keep rfl (Function.update_of_ne h _ _) rfl rfl rfl rfl

theorem setEpoch {j' : J} (h : j ≠ j') (e : BitVec 64) : Still reaper j s (s.setEpoch j' e) :=
  keep rfl rfl (Function.update_of_ne h _ _) rfl rfl rfl

/-- Out of `block`, to a call that does not notify. -/
theorem leaveBlock {f : Action I J} (h : s.leaveBlock t f = some s') (hf : f.Fits (s.call t)) :
    Still reaper j s s' := by
  have hb : Still reaper j s (s.setBlock t .outside) := keep rfl rfl rfl rfl rfl rfl
  cases f with
  | yield =>
    injection h with h
    subst h
    exact hb
  | stop =>
    dsimp only [State.leaveBlock] at h
    split at h
    · injection h with h
      subst h
      exact hb
    · cases h
  | down i =>
    injection h with h
    subst h
    have hk : s.call t = .down i := hf
    exact hb.trans (setCall (by show (s.call t).notifying j = _; rw [hk]; rfl) rfl rfl)
  | wait j' e =>
    injection h with h
    subst h
    have hk : s.call t = .wait j' e := hf
    exact hb.trans (setCall (by show (s.call t).notifying j = _; rw [hk]; rfl) rfl rfl)

/-- The handler returns. -/
theorem resume (hr : s.resume c = some s') (hcb : reaper = j → signals (s.callback c) = false)
    (hf : ∀ f, s.block (s.stack c) = .away f → f.Fits (s.call (s.stack c))) :
    Still reaper j s s' := by
  have h₁ : Still reaper j s (s.setCallback c none) := setCallback hcb fun _ => rfl
  unfold State.resume at hr
  split at hr
  · rename_i f hb
    exact h₁.trans (leaveBlock hr (hf f hb))
  · injection hr with hr
    subst hr
    exact h₁

end Still

theorem resume_setCallback : (s.setCallback c none).resume c = s.resume c := by
  have h : (s.setCallback c none).setCallback c none = s.setCallback c none := by
    simp [State.setCallback]
  unfold State.resume
  rw [h]
  rfl

/-! ## What a step can do to a condition

The steps that do have to do with it, named: someone takes its lock or gives it up, joins its
queue, begins a notification or takes a thread in one. The results about conditions go through
`Moves` and never unfold `step`: `Moves.moves` is the one place at which all steps of the system
are looked at for this. -/

inductive Moves (reaper j : J) (s s' : State C N I J) : Prop
  | still (h : Still reaper j s s')
  /-- `lock()`, or `wait()` is back from `block` -/
  | locks (t : TCB C N) (hl : s.lock j = none)
      (h : Still reaper j (s.setLock j (some (.thread t))) s')
  | unlocks (t : TCB C N) (hl : s.lock j = some (.thread t)) (hk : (s.call t).notifying j = false)
      (h : Still reaper j (s.setLock j none) s')
  | releases (t : TCB C N) (hl : s.lock j = some (.thread t)) (hk : s.call t = .none)
      (h : s' = ((s.setLock j none).emit [.releases j t]).setCall t (.wait j (s.epoch j)))
  /-- the callback of `wait()` finds the epoch it knows -/
  | joins (c : C) (me : TCB C N) (old_epoch : BitVec 64) (hl : s.lock j = none)
      (hc : s.callback c = some (.run (.wait j old_epoch) me)) (hk : s.call me = .wait j old_epoch)
      (he : old_epoch = s.epoch j)
      (hq : ((s.add (.queue j) me).emit [.joins j me]).queues.contents (.queue j) =
        s.queues.contents (.queue j) ++ [me])
      (h : Still reaper j ((s.add (.queue j) me).emit [.joins j me]) s')
  | notifies (t : TCB C N) (limit : BitVec 64) (hl : s.lock j = some (.thread t))
      (hk : s.call t = .none)
      (h : s' = ((s.setEpoch j (s.epoch j + 1)).emit [.notifies j limit]).setCall t
        (.notify j limit 0))
  | takes (t : TCB C N) (limit i : BitVec 64) (next : TCB C N) (rest : List (TCB C N))
      (hk : s.call t = .notify j limit i) (hi : i < limit)
      (hq : s.queues.contents (.queue j) = next :: rest)
      (hq' : (s.remove (.queue j)).2.queues.contents (.queue j) = rest)
      (h : s' = (s.remove (.queue j)).2.setCall t (.rouse j limit i next))
  | ends (t : TCB C N) (limit i : BitVec 64) (hk : s.call t = .notify j limit i)
      (hi : ¬ i < limit ∨ s.queues.contents (.queue j) = [])
      (h : s' = (s.emit [.notified j]).setCall t .none)
  | rouses (t : TCB C N) (limit i : BitVec 64) (next : TCB C N)
      (hk : s.call t = .rouse j limit i next)
      (h : s' = (s.schedule next).setCall t (.notify j limit (i + 1)))
  /-- `reaper.put()` has the lock -/
  | puts (c : C) (me : TCB C N) (hj : reaper = j) (hl : s.lock j = none)
      (hc : s.callback c = some (.run .stop me))
      (h : Still reaper j ((s.setLock j (some (.callback c))).setCallback c (some .notify)) s')
  | signals (c : C) (next : TCB C N) (rest : List (TCB C N)) (hj : reaper = j)
      (hc : s.callback c = some .notify) (hq : s.queues.contents (.queue j) = next :: rest)
      (hq' : (s.remove (.queue j)).2.queues.contents (.queue j) = rest)
      (h : s' = (((s.setEpoch j (s.epoch j + 1)).emit [.notifies j 1]).remove (.queue j)).2.setCallback
        c (some (.rouse next)))
  | signalsNobody (c : C) (hj : reaper = j) (hc : s.callback c = some .notify)
      (hq : s.queues.contents (.queue j) = [])
      (h : s' = ((s.setEpoch j (s.epoch j + 1)).emit [.notifies j 1]).setCallback c (some .unlock))
  | signalled (c : C) (next : TCB C N) (hj : reaper = j) (hc : s.callback c = some (.rouse next))
      (h : s' = (s.schedule next).setCallback c (some .unlock))
  | unlocked (c : C) (hj : reaper = j) (hc : s.callback c = some .unlock)
      (h : Still reaper j (((s.setLock j none).emit [.notified j]).setCallback c none) s')

namespace Sound

variable {line : QueueId I J → List N} {place : N → Place (Slot C N) (QueueId I J)}

/-- What `remove` finds, by the contents of the queue. -/
theorem take_contents (S : Sound reaper s line place) (q : QueueId I J) :
    (s.queues.contents q = [] ∧ s.remove q = (none, s)) ∨
    ∃ next rest, s.queues.contents q = next :: rest ∧ s.remove q = (some next, (s.remove q).2) ∧
      (s.remove q).2.queues.contents q = rest := by
  rcases S.places.take q with ⟨hl, hrem⟩ | ⟨n, l, qs, hl, hrem, T⟩
  · refine Or.inl ⟨by rw [S.places.threaded.contents_eq, hl]; rfl, ?_⟩
    unfold State.remove
    rw [hrem]
  · refine Or.inr ⟨.made n, l.map .made, by rw [S.places.threaded.contents_eq, hl]; rfl, ?_, ?_⟩
    · unfold State.remove
      rw [hrem]
    · show (s.queues.remove q).2.contents q = _
      rw [hrem, T.contents_eq]
      simp

theorem fits_away (S : Sound reaper s line place) (c : C) :
    ∀ f, s.block (s.stack c) = .away f → f.Fits (s.call (s.stack c)) :=
  fun f hb => S.control.fits _ f (by rw [hb]; rfl)

/-- `schedule(me)`, and the handler returns. -/
theorem schedule_still (S : Sound reaper s line place) {me : TCB C N} (es : List (Event C N I J))
    (hes : ∀ e ∈ es, e.onCond j = false) (hc : signals (s.callback c) = false)
    (h : ((s.schedule me).emit es).resume c = some s') : Still reaper j s s' :=
  ((Still.schedule me).trans (Still.emit hes)).trans
    (Still.resume h (fun _ => hc) (S.fits_away c))

theorem tryLock_eq {h : Holder C N} (ht : s.tryLock j h = some s') :
    s.lock j = none ∧ s' = s.setLock j (some h) := by
  unfold State.tryLock at ht
  split at ht
  · rename_i hl
    injection ht with ht
    exact ⟨hl, ht.symm⟩
  · cases ht

theorem wait_moves (S : Sound reaper s line place) {j' : J} {e : BitVec 64} {me : TCB C N}
    (hc : s.callback c = some (.run (.wait j' e) me)) (h : s.waitAgain c j' e me = some s') :
    Moves reaper j s s' := by
  unfold State.waitAgain at h
  split at h
  · cases h
  rename_i hme
  split at h
  · cases h
  rename_i hl
  split at h
  · cases h
  split at h
  · rename_i he
    have hres : Still reaper j ((s.add (.queue j') me).emit [.joins j' me]) s' :=
      Still.resume h (fun _ => by show signals (s.callback c) = _; rw [hc]; rfl) (S.fits_away c)
    by_cases hj : j = j'
    · subst hj
      cases me with
      | idle d => exact absurd rfl hme
      | made n =>
        have hk : s.call (.made n) = .wait j e :=
          S.control.fits _ (.wait j e) (by rw [S.kept.callback c _ n hc rfl]; rfl)
        refine .joins c _ e hl hc hk he ?_ hres
        have P : Places ((s.add (.queue j) (.made n)).setCallback c none) _ _ :=
          S.places.park (.queue j) (slot_callback hc) rfl (slot_setCallback _ _ _) rfl
        have hq : (s.queues.add (.queue j) (.made n)).contents (.queue j) = _ :=
          P.threaded.contents_eq (.queue j)
        show (s.queues.add (.queue j) (.made n)).contents _ = _
        rw [hq, S.places.threaded.contents_eq]
        simp
    · exact .still (((Still.add (by simpa using hj)).trans (Still.emit (by simp [Event.onCond, Ne.symm hj]))).trans
        hres)
  · injection h with h
    subst h
    exact .still (Still.setCallback (fun _ => by rw [hc]; rfl) fun _ => rfl)

theorem callback_moves (S : Sound reaper s line place) {k : Callback C N I J}
    (hc : s.callback c = some k) (h : s.callbackStep reaper c k = some s') : Moves reaper j s s' := by
  cases k with
  | run f me =>
    cases f with
    | yield => exact .still (S.schedule_still [] (by simp) (by rw [hc]; rfl) (by rw [State.emit_nil]; exact h))
    | stop =>
      dsimp only [State.callbackStep] at h
      split at h
      · exact .still (Still.resume h (fun _ => by rw [hc]; rfl) (S.fits_away c))
      · obtain ⟨s₁, hs₁, rfl⟩ := Option.map_eq_some_iff.mp h
        obtain ⟨hl, rfl⟩ := tryLock_eq hs₁
        -- the callbacks of `stop` and `notify` are about one condition, that of the reaper
        by_cases hj : reaper = j
        · subst hj
          refine .puts c me rfl hl hc (Still.keep ?_ rfl rfl rfl rfl rfl)
          exact Queues.contents_add_ne me (by simp)
        · exact .still (((Still.setLock (Ne.symm hj) _).trans (Still.add (by simp))).trans
            (Still.setCallback (fun h => absurd h hj) fun h => absurd h hj))
    | down i =>
      dsimp only [State.callbackStep, State.downAgain] at h
      split at h
      · cases h
      split at h
      · injection h with h
        subst h
        have h₁ : Still reaper j s (s.setCount i (s.count i - 1)) := Still.keep rfl rfl rfl rfl rfl rfl
        exact .still ((h₁.trans (Still.setCallback (fun _ => by
          show signals (s.callback c) = _; rw [hc]; rfl) fun _ => rfl)).trans
            (Still.emit (by simp [Event.onCond])))
      · exact .still ((Still.add (by simp)).trans (Still.resume h (fun _ => by
          show signals (s.callback c) = _; rw [hc]; rfl) (S.fits_away c)))
    | wait j' e => exact S.wait_moves hc h
  | granted i me => exact .still (S.schedule_still _ (by simp [Event.onCond]) (by rw [hc]; rfl) h)
  | missed j' me =>
    exact .still (S.schedule_still [] (by simp) (by rw [hc]; rfl) (by rw [State.emit_nil]; exact h))
  | notify =>
    dsimp only [State.callbackStep] at h
    by_cases hj : reaper = j
    · subst hj
      rcases S.take_contents (.queue reaper) with ⟨hq, hrem⟩ | ⟨next, rest, hq, hrem, hq'⟩
      · have hnone : (((s.setEpoch reaper (s.epoch reaper + 1)).emit [.notifies reaper 1]).remove
            (.queue reaper)).1 = none := congrArg Prod.fst hrem
        refine .signalsNobody c rfl hc hq ?_
        split at h
        · rename_i hs
          rw [hs] at hnone
          cases hnone
        · injection h with h
          exact h.symm
      · have hsome : (((s.setEpoch reaper (s.epoch reaper + 1)).emit [.notifies reaper 1]).remove
            (.queue reaper)).1 = some next := congrArg Prod.fst hrem
        refine .signals c next rest rfl hc hq hq' ?_
        split at h
        · rename_i n s₁ hs
          rw [hs] at hsome ⊢
          injection hsome with hsome
          subst hsome
          injection h with h
          exact h.symm
        · rename_i hs
          rw [hs] at hsome
          cases hsome
    · have h₁ : Still reaper j s ((s.setEpoch reaper (s.epoch reaper + 1)).emit [.notifies reaper 1]) :=
        (Still.setEpoch (Ne.symm hj) _).trans (Still.emit (by simp [Event.onCond, hj]))
      split at h
      · rename_i n s₁ hs
        injection h with h
        subst h
        have h₂ := h₁.trans (Still.remove (q := .queue reaper) (by simpa using Ne.symm hj))
        rw [hs] at h₂
        exact .still (h₂.trans (Still.setCallback (fun h => absurd h hj) fun h => absurd h hj))
      · injection h with h
        subst h
        exact .still (h₁.trans (Still.setCallback (fun h => absurd h hj) fun h => absurd h hj))
  | rouse next =>
    injection h with h
    subst h
    by_cases hj : reaper = j
    · exact .signalled c next hj hc rfl
    · exact .still ((Still.schedule next).trans
        (Still.setCallback (fun h => absurd h hj) fun h => absurd h hj))
  | unlock =>
    dsimp only [State.callbackStep] at h
    rw [← resume_setCallback] at h
    have hres : Still reaper j (((s.setLock reaper none).emit [.notified reaper]).setCallback c none) s' :=
      Still.resume h (fun _ => by simp [State.setCallback, signals]) (S.fits_away c)
    by_cases hj : reaper = j
    · subst hj
      exact .unlocked c rfl hc hres
    · exact .still ((((Still.setLock (Ne.symm hj) _).trans (Still.emit (by simp [Event.onCond, hj]))).trans
        (Still.setCallback (fun h => absurd h hj) fun h => absurd h hj)).trans hres)

theorem call_moves (S : Sound reaper s line place) {k : Call C N I J} (hk : s.call t = k)
    (h : s.callStep c t k = some s') : Moves reaper j s s' := by
  have hcall : ∀ {k' : Call C N I J}, k.notifying j = false → k'.notifying j = false →
      k'.waiting j = false → Still reaper j s (s.setCall t k') :=
    fun h₁ h₂ h₃ => Still.setCall (by rw [hk]; exact h₁) h₂ h₃
  have henter : ∀ f, Still reaper j s (s.enterBlock c f) := fun f => Still.keep rfl rfl rfl rfl rfl rfl
  cases k with
  | none => cases h
  | creating tcb =>
    injection h with h
    subst h
    exact .still ((Still.schedule _).trans (Still.setCall (by
      show (s.call t).notifying j = _; rw [hk]; rfl) rfl rfl))
  | deleting it =>
    cases it with
    | idle d => cases h
    | made n =>
      injection h with h
      subst h
      exact .still ((hcall rfl rfl rfl).trans (Still.keep rfl rfl rfl rfl rfl rfl))
  | stopping =>
    injection h with h
    subst h
    exact .still (henter _)
  | down i =>
    injection h with h
    subst h
    exact .still (henter _)
  | up i next =>
    injection h with h
    subst h
    exact .still (((Still.schedule next).trans (Still.emit (by simp [Event.onCond]))).trans
      (Still.setCall (by show (s.call t).notifying j = _; rw [hk]; rfl) rfl rfl))
  | wait j' e =>
    injection h with h
    subst h
    exact .still (henter _)
  | relock j' =>
    obtain ⟨s₁, hs₁, rfl⟩ := Option.map_eq_some_iff.mp h
    obtain ⟨hl, rfl⟩ := tryLock_eq hs₁
    have hset : Still reaper j (s.setLock j' (some (.thread t)))
        ((s.setLock j' (some (.thread t))).setCall t .none) :=
      Still.setCall (by show (s.call t).notifying j = _; rw [hk]; rfl) rfl rfl
    by_cases hj : j = j'
    · subst hj
      exact .locks t hl hset
    · exact .still ((Still.setLock hj _).trans hset)
  | notify j' limit i =>
    -- the loop of `notify` takes from the queue of its own condition; on any other nothing shows
    by_cases hj : j' = j
    · subst hj
      by_cases hi : i < limit
      · rcases S.take_contents (.queue j') with ⟨hq, hrem⟩ | ⟨next, rest, hq, hrem, hq'⟩
        · simp only [State.callStep, hi, if_true, hrem, Option.some.injEq] at h
          exact .ends t limit i hk (Or.inr hq) h.symm
        · rw [State.callStep, if_pos hi, hrem] at h
          injection h with h
          exact .takes t limit i next rest hk hi hq hq' h.symm
      · simp only [State.callStep, hi, if_false, Option.some.injEq] at h
        exact .ends t limit i hk (Or.inl hi) h.symm
    · have hne : ∀ k' : Call C N I J, k'.notifying j = false → k'.waiting j = false →
          ∀ s₁ : State C N I J, s₁.call = s.call → Still reaper j s₁ (s₁.setCall t k') :=
        fun k' h₁ h₂ s₁ hs₁ => Still.setCall (by rw [hs₁, hk]; simp [Call.notifying, hj]) h₁ h₂
      have hdone : Still reaper j s ((s.emit [.notified j']).setCall t .none) :=
        (Still.emit (by simp [Event.onCond, hj])).trans (hne .none rfl rfl _ rfl)
      dsimp only [State.callStep] at h
      split at h
      · split at h
        · rename_i n s₁ hs
          injection h with h
          subst h
          have h₁ := (Still.remove (q := .queue j') (by simpa using Ne.symm hj) : Still reaper j s _)
          have hc₁ : (s.remove (.queue j')).2.call = s.call := rfl
          rw [hs] at h₁ hc₁
          exact .still (h₁.trans (hne (.rouse j' limit i n) (by simp [Call.notifying, hj]) rfl _ hc₁))
        · injection h with h
          subst h
          exact .still hdone
      · injection h with h
        subst h
        exact .still hdone
  | rouse j' limit i next =>
    injection h with h
    subst h
    by_cases hj : j' = j
    · subst hj
      exact .rouses t limit i next hk rfl
    · exact .still ((Still.schedule next).trans (Still.setCall (by
        show (s.call t).notifying j = _; rw [hk]; simp [Call.notifying, hj])
        (by simp [Call.notifying, hj]) rfl))

theorem choose_still (S : Sound reaper s line place) {f : Action I J}
    (hb : s.block (s.stack c) = .choosing f) (h : s.choose c (s.stack c) f = some s') :
    Still reaper j s s' := by
  have hf : f.Fits (s.call (s.stack c)) := S.control.fits _ f (by rw [hb]; rfl)
  unfold State.choose at h
  split at h
  · rename_i n s₁ hs
    injection h with h
    subst h
    have h₁ := (Still.remove (q := .readyQ) (by simp) : Still reaper j s _)
    rw [hs] at h₁
    exact h₁.trans (Still.keep rfl rfl rfl rfl rfl rfl)
  · split at h
    · have h₁ : Still reaper j s (s.setPreempt (s.stack c) false) := Still.keep rfl rfl rfl rfl rfl rfl
      exact h₁.trans (Still.leaveBlock h hf)
    · split at h
      · split at h
        · injection h with h
          subst h
          exact Still.refl s
        · cases h
      · injection h with h
        subst h
        exact Still.keep rfl rfl rfl rfl rfl rfl

theorem go_moves (S : Sound reaper s line place) (h : s.go reaper c = some s') :
    Moves reaper j s s' := by
  unfold State.go at h
  cases hc : s.callback c with
  | some k =>
    rw [hc] at h
    exact S.callback_moves hc h
  | none =>
    rw [hc] at h
    dsimp only at h
    cases hb : s.block (s.stack c) with
    | outside =>
      rw [hb] at h
      exact S.call_moves rfl h
    | choosing f =>
      rw [hb] at h
      exact .still (S.choose_still hb h)
    | chosen f next_tcb =>
      rw [hb] at h
      injection h with h
      subst h
      exact .still (Still.keep rfl rfl rfl rfl rfl rfl)
    | switching f next_tcb =>
      rw [hb] at h
      injection h with h
      subst h
      have h₁ : Still reaper j s (s.setCallback c (some (.run f (s.stack c)))) :=
        Still.setCallback (fun _ => by rw [hc]; rfl) fun _ => rfl
      exact .still (h₁.trans (Still.keep rfl rfl rfl rfl rfl rfl))
    | away f =>
      rw [hb] at h
      cases h

/-- Every step is one of the moves. -/
theorem moves (S : Sound reaper s line place) {l : Label C N I J} (hs : step reaper s l = some s')
    (j : J) : Moves reaper j s s' := by
  cases l with
  | go c => exact S.go_moves hs
  | timer c =>
    rcases S.timer_cases hs with rfl | ⟨-, rfl⟩
    · exact .still (Still.refl s)
    · exact .still (Still.keep rfl rfl rfl rfl rfl rfl)
  | create c n =>
    obtain ⟨t, hf, h⟩ := Option.bind_eq_some_iff.mp hs
    obtain ⟨hr, hk⟩ := free_iff.mp hf
    unfold State.create at h
    split at h
    · cases h
    rename_i hv
    injection h with h
    subst h
    have hdead : (s.call (.made n)).notifying j = false := by
      rcases S.kept.dead n (by simpa using hv) with hd | hd <;> rw [hd] <;> rfl
    have h₁ : Still reaper j s (((s.setLive n true).setPreempt (.made n) false).setBlock (.made n)
        .outside) := Still.keep rfl rfl rfl rfl rfl rfl
    refine .still ((h₁.trans (Still.setCall hdead rfl rfl)).trans (Still.setCall ?_ rfl rfl))
    by_cases ht : t = .made n
    · subst ht
      simp [State.setCall, Call.notifying]
    · simp [State.setCall, State.setBlock, State.setPreempt, State.setLive, ht, hk, Call.notifying]
  | reap c =>
    obtain ⟨t, hf, rfl⟩ := Option.map_eq_some_iff.mp hs
    obtain ⟨hr, hk⟩ := free_iff.mp hf
    rcases S.take_contents .zombies with ⟨hq, hrem⟩ | ⟨next, rest, hq, hrem, hq'⟩
    · simp only [State.reap, hrem]
      exact .still (Still.refl s)
    · rw [State.reap, hrem]
      exact .still ((Still.remove (by simp)).trans (Still.setCall (by
        show (s.call t).notifying j = _; rw [hk]; rfl) rfl rfl))
  | yield c =>
    obtain ⟨t, hf, rfl⟩ := Option.map_eq_some_iff.mp hs
    exact .still (Still.keep rfl rfl rfl rfl rfl rfl)
  | stop c =>
    obtain ⟨t, hf, rfl⟩ := Option.map_eq_some_iff.mp hs
    exact .still (Still.setCall (by rw [(free_iff.mp hf).2]; rfl) rfl rfl)
  | down c i =>
    obtain ⟨t, hf, rfl⟩ := Option.map_eq_some_iff.mp hs
    unfold State.down
    split
    · have h₁ : Still reaper j s (s.setCount i (s.count i - 1)) := Still.keep rfl rfl rfl rfl rfl rfl
      exact .still (h₁.trans (Still.emit (by simp [Event.onCond])))
    · exact .still ((Still.emit (by simp [Event.onCond])).trans (Still.setCall (by
        show (s.call t).notifying j = _; rw [(free_iff.mp hf).2]; rfl) rfl rfl))
  | up c i =>
    obtain ⟨t, hf, rfl⟩ := Option.map_eq_some_iff.mp hs
    rcases S.take_contents (.waiting i) with ⟨hq, hrem⟩ | ⟨next, rest, hq, hrem, hq'⟩
    · simp only [State.up, hrem]
      have h₁ : Still reaper j s (s.setCount i (s.count i + 1)) := Still.keep rfl rfl rfl rfl rfl rfl
      exact .still (h₁.trans (Still.emit (by simp [Event.onCond])))
    · rw [State.up, hrem]
      exact .still (((Still.remove (by simp)).trans (Still.emit (by simp [Event.onCond]))).trans
        (Still.setCall (by show (s.call t).notifying j = _; rw [(free_iff.mp hf).2]; rfl) rfl rfl))
  | lock c j' =>
    obtain ⟨t, hf, h⟩ := Option.bind_eq_some_iff.mp hs
    obtain ⟨hl, rfl⟩ := tryLock_eq h
    -- steps on other conditions leave this one as it is
    by_cases hj : j = j'
    · subst hj
      exact .locks t hl (Still.refl _)
    · exact .still (Still.setLock hj _)
  | unlock c j' =>
    obtain ⟨t, hr, h⟩ := Option.bind_eq_some_iff.mp hs
    have hun : (s.call t).notifying j' = false → s.lock j' = some (.thread t) →
        some (s.setLock j' none) = some s' → Moves reaper j s s' := by
      intro hk hl h
      injection h with h
      subst h
      by_cases hj : j = j'
      · subst hj
        exact .unlocks t hl hk (Still.refl _)
      · exact .still (Still.setLock hj _)
    unfold State.unlock at h
    split at h
    · rename_i hk
      split at h
      · rename_i hl
        exact hun (by rw [hk]; rfl) hl h
      · cases h
    · rename_i it hk
      split at h
      · rename_i hl
        exact hun (by rw [hk]; rfl) hl h
      · cases h
    · cases h
  | wait c j' =>
    obtain ⟨t, hf, h⟩ := Option.bind_eq_some_iff.mp hs
    obtain ⟨hr, hk⟩ := free_iff.mp hf
    unfold State.wait at h
    split at h
    · rename_i hl
      injection h with h
      subst h
      by_cases hj : j' = j
      · subst hj
        exact .releases t hl hk rfl
      · exact .still (((Still.setLock (Ne.symm hj) _).trans (Still.emit (by simp [Event.onCond, hj]))).trans
          (Still.setCall (by show (s.call t).notifying j = _; rw [hk]; rfl) rfl
            (by simp [Call.waiting, hj])))
    · cases h
  | notify c j' limit =>
    obtain ⟨t, hf, h⟩ := Option.bind_eq_some_iff.mp hs
    obtain ⟨hr, hk⟩ := free_iff.mp hf
    unfold State.notify at h
    split at h
    · rename_i hl
      injection h with h
      subst h
      by_cases hj : j' = j
      · subst hj
        exact .notifies t limit hl hk rfl
      · exact .still (((Still.setEpoch (Ne.symm hj) _).trans (Still.emit (by simp [Event.onCond, hj]))).trans
          (Still.setCall (by show (s.call t).notifying j = _; rw [hk]; rfl)
            (by simp [Call.notifying, hj]) rfl))
    · cases h

end Sound

end OsKernel.Threads
