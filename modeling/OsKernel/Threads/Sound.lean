import OsKernel.Threads.Place

/-!
# No step loses a thread

`Sound` is the invariant of the thread module: the places, the control, and how threads got
where they are, of `Threads/Place.lean`. There is one lemma for each step of the model,
`Ok.step` for a step of any kind, and `every_thread_in_one_place` for whole runs.

Most steps are one of a few shapes: the code of a thread changes its call, with something in
its hand or without; `block` goes one step further; a callback goes one step further, or is
through and the handler returns. There is a lemma for each of the shapes, stated for a state
in which the rest of the step has already been done (`leaveBlock`, `resume`), so that the
lemma about a step puts two of them together.

The timer is the step that could spoil it. It gets in wherever the code of a thread runs, and
calls `yield` there; inside `block` it does not, since `no_preempt` is set, and `timer_cases`
is the proof.
-/

set_option autoImplicit false
set_option linter.unusedSectionVars false

namespace OsKernel.Threads

open Lib

variable {C N I J : Type} [DecidableEq C] [DecidableEq N] [DecidableEq I] [DecidableEq J]

structure Sound (reaper : J) (s : State C N I J) (line : QueueId I J → List N)
    (place : N → Place (Slot C N) (QueueId I J)) : Prop where
  control : Control s
  places : Places s line place
  kept : Kept reaper s line

/-- Some lists and some map from threads to places make the state sound. -/
def Ok (reaper : J) (s : State C N I J) : Prop := ∃ line place, Sound reaper s line place

theorem running_iff {s : State C N I J} {c : C} {t : TCB C N} :
    s.running c = some t ↔ s.callback c = none ∧ s.block (s.stack c) = .outside ∧ s.stack c = t := by
  unfold State.running
  cases hc : s.callback c with
  | some k => simp
  | none => cases hb : s.block (s.stack c) <;> simp

theorem free_iff {s : State C N I J} {c : C} {t : TCB C N} :
    s.free c = some t ↔ s.running c = some t ∧ s.call t = .none := by
  unfold State.free
  rw [Option.bind_eq_some_iff]
  constructor
  · intro h
    obtain ⟨u, hu, h⟩ := h
    cases hk : s.call u <;> simp [hk] at h
    subst h
    exact ⟨hu, hk⟩
  · intro h
    exact ⟨t, h.1, by simp [h.2]⟩

namespace Sound

variable {reaper : J} {s s' : State C N I J} {line line' : QueueId I J → List N}
  {place place' : N → Place (Slot C N) (QueueId I J)} {c : C} {t : TCB C N}

/-- A core that runs code has its thread active. -/
theorem active (S : Sound reaper s line place) (hr : s.running c = some t) : s.activeThreads c = t := by
  obtain ⟨hc, hb, rfl⟩ := running_iff.mp hr
  cases S.control.core c with
  | code h₁ h₂ h₃ => exact h₂
  | choosing f h₁ h₂ h₃ h₄ => exact h₂
  | chosen f n h₁ h₂ h₃ h₄ h₅ => exact h₂
  | switching f h₁ h₂ h₃ h₄ => rw [hb] at h₂; cases h₂
  | callback k h₁ h₂ h₃ => exact h₂

/-! ## Into `block` and out of it

A core that is in `block` goes from `choosing` to `chosen` to `switching` and then is on the stack
of the next thread with a callback to run. At each of these the thread that is left and the one
that comes are in some hand, and `Sound` says whose. `leaveBlock` and `resume` are stated for a
state `s₁` in which the rest of the step has been done, because they end several different steps.
-/

theorem enterBlock (S : Sound reaper s line place) (hr : s.running c = some t)
    {f : Action I J} (hf : f.Fits (s.call t)) : Sound reaper (s.enterBlock c f) line place := by
  have hact := S.active hr
  obtain ⟨hc, hb, rfl⟩ := running_iff.mp hr
  have hs : s.enterBlock c f =
      (s.setPreempt (s.stack c) true).setBlock (s.stack c) (.choosing f) := by
    rw [State.enterBlock, hact]
  have hslot : (s.enterBlock c f).slot = s.slot := by
    rw [hs]
    refine (slot_setBlock_same _ ?_).trans rfl
    show (s.block (s.stack c)).held = none
    rw [hb]
    rfl
  have hblock : ∀ u, u ≠ s.stack c → (s.enterBlock c f).block u = s.block u := by
    intro u hu
    rw [hs]
    exact Function.update_of_ne hu _ _
  have P : Places (s.enterBlock c f) line place := S.places.same (by rw [hs]; rfl) hslot (by rw [hs]; rfl)
  refine ⟨?_, P, ?_⟩
  · rw [hs] at hblock ⊢
    refine S.control.in_block S.places.placed c ?_ rfl rfl (fun _ _ => rfl) ?_ ?_ (fun _ _ => rfl) ?_
    · exact .choosing f hc hact (Function.update_self ..) (Function.update_self ..)
    · exact hblock
    · intro u hu
      exact Function.update_of_ne hu _ _
    · intro g hg
      simp only [State.setBlock, Function.update_self, Block.action, Option.some.injEq] at hg
      subst hg
      exact hf
  · exact S.kept.at_core S.places P c (by rw [hs]; rfl) hblock (fun u _ => by rw [hs]; rfl)
      (by rw [hs]; rfl) (gains_refl s line) (fun _ _ _ h hn => absurd (by rw [hs] at h; exact h) hn)
      (fun _ h => absurd (by rw [hs]; rfl) h)

/-- The thread on `c` goes back to its code. In `s₁` the step has done everything else. -/
theorem leaveBlock (S : Sound reaper s line place) {f : Action I J} {s₁ : State C N I J}
    (h : s₁.leaveBlock (s.stack c) f = some s') (hfits : f.Fits (s.call (s.stack c))) (ha : s.activeThreads c = s.stack c)
    (hstack : s₁.stack = s.stack) (hactive : s₁.activeThreads = s.activeThreads)
    (hc : s₁.callback c = none) (hcd : ∀ d, d ≠ c → s₁.callback d = s.callback d)
    (hb : s₁.block = s.block) (hheld : (s.block (s.stack c)).held = none)
    (hp : ∀ u, u ≠ s.stack c → s₁.no_preempt u = s.no_preempt u) (hk : s₁.call = s.call)
    (hv : s₁.live = s.live)
    (P : ∃ line' place', Places s₁ line' place' ∧ Gains s line line') : Ok reaper s' := by
  obtain ⟨line', place', P, hG⟩ := P
  have hb₁ : (s₁.block (s.stack c)).held = (Block.outside : Block C N I J).held := by
    rw [hb, hheld]
    rfl
  have hcb : ∀ d k n, s₁.callback d = some k → s.callback d ≠ some k → k.held = some n →
      k.Keeps reaper (s.block (.made n)) := by
    intro d k n hd hn _
    by_cases hdc : d = c
    · rw [hdc, hc] at hd
      cases hd
    · rw [hcd d hdc] at hd
      exact absurd hd hn
  have hout : Sound reaper (s₁.setBlock (s.stack c) .outside) line' place' := by
    have P₁ : Places (s₁.setBlock (s.stack c) .outside) line' place' :=
      P.same rfl (slot_setBlock_same _ hb₁) rfl
    have hblock : ∀ u, u ≠ s.stack c →
        (s₁.setBlock (s.stack c) .outside).block u = s.block u := by
      intro u hu
      show Function.update s₁.block (s.stack c) .outside u = _
      rw [Function.update_of_ne hu, hb]
    refine ⟨?_, P₁, S.kept.at_core S.places P₁ c hstack hblock (fun u _ => congrFun hk u) hv hG hcb
      (fun _ h => absurd (congrFun hk _) h)⟩
    refine S.control.in_block S.places.placed c ?_ hstack hactive hcd ?_ hp ?_ ?_
    · refine .code hc (by show s₁.activeThreads c = s₁.stack c; rw [hactive, hstack, ha]) ?_
      show Function.update s₁.block (s.stack c) .outside (s₁.stack c) = .outside
      rw [hstack, Function.update_self]
    · exact hblock
    · intro u _
      exact congrFun hk u
    · intro g hg
      simp [State.setBlock, Block.action] at hg
  -- the call only loses or gains an empty hand
  have hcall : ∀ k, k.held = none → (s.call (s.stack c)).held = none →
      Ok reaper ((s₁.setBlock (s.stack c) .outside).setCall (s.stack c) k) := by
    intro k hkn hcn
    have hnone : (s₁.call (s.stack c)).held = k.held := by rw [hk, hcn, hkn]
    have P₂ : Places ((s₁.setBlock (s.stack c) .outside).setCall (s.stack c) k) line' place' :=
      hout.places.same rfl (slot_setCall_same _ hnone) rfl
    refine ⟨line', place', ?_, P₂, ?_⟩
    · refine hout.control.same rfl rfl rfl rfl rfl ?_
      intro u g hu
      refine Function.update_of_ne ?_ _ _
      intro huc
      subst huc
      simp [State.setBlock, Block.action] at hu
    · refine hout.kept.at_core hout.places P₂ c rfl (fun _ _ => rfl) ?_ rfl (gains_refl _ _)
        (fun _ _ _ h hn => absurd h hn) ?_
      · intro u hu
        refine Function.update_of_ne ?_ _ _
        rwa [← congrFun hstack c]
      · intro n _ hh
        have hsc : (s₁.setBlock (s.stack c) .outside).stack c = s.stack c := congrFun hstack c
        rw [hsc] at hh
        simp [State.setCall, hkn] at hh
  cases f with
  | yield =>
    simp only [State.leaveBlock, Option.some.injEq] at h
    subst h
    exact ⟨_, _, hout⟩
  | stop =>
    by_cases hi : (s.stack c).isIdle = true
    · simp only [State.leaveBlock, hi, if_true, Option.some.injEq] at h
      subst h
      exact ⟨_, _, hout⟩
    · simp [State.leaveBlock, hi] at h
  | down i =>
    simp only [State.leaveBlock, Option.some.injEq] at h
    subst h
    have hcn : s.call (s.stack c) = .down i := hfits
    exact hcall _ rfl (by rw [hcn]; rfl)
  | wait j e =>
    simp only [State.leaveBlock, Option.some.injEq] at h
    subst h
    have hcn : s.call (s.stack c) = .wait j e := hfits
    exact hcall _ rfl (by rw [hcn]; rfl)

/-- The ready queue is asked: the thread chosen is in hand. -/
theorem choose (S : Sound reaper s line place) {f : Action I J}
    (hc : s.callback c = none) (hb : s.block (s.stack c) = .choosing f)
    (h : s.choose c (s.stack c) f = some s') : Ok reaper s' := by
  have hat : s.activeThreads c = s.stack c ∧ s.no_preempt (s.stack c) = true := by
    cases S.control.core c with
    | choosing f' h₁ h₂ h₃ h₄ => exact ⟨h₂, h₄⟩
    | code h₁ h₂ h₃ => rw [hb] at h₃; cases h₃
    | chosen f' n h₁ h₂ h₃ h₄ h₅ => rw [hb] at h₃; cases h₃
    | switching f' h₁ h₂ h₃ h₄ => rw [hb] at h₂; cases h₂
    | callback k h₁ h₂ h₃ => rw [hc] at h₁; cases h₁
  have hfits : f.Fits (s.call (s.stack c)) := S.control.fits _ f (by rw [hb]; rfl)
  have hslot : s.slot (.block (s.stack c)) = none := by
    show (s.block (s.stack c)).held = none
    rw [hb]
    rfl
  -- with `next_tcb` known, the core has gone one step further in `block`
  have hchosen : ∀ (next_tcb : TCB C N) (qs : Queues (QueueId I J) (TCB C N)) {line' place'},
      (∀ d, next_tcb = .idle d → d = c ∧ (s.stack c).isIdle = false) →
      Places (({ s with queues := qs } : State C N I J).setBlock (s.stack c) (.chosen f next_tcb))
        line' place' → Gains s line line' →
      Ok reaper (({ s with queues := qs } : State C N I J).setBlock (s.stack c)
        (.chosen f next_tcb)) := by
    intro next_tcb qs line' place' hn P hG
    have hblock : ∀ u, u ≠ s.stack c → (({ s with queues := qs } : State C N I J).setBlock
        (s.stack c) (.chosen f next_tcb)).block u = s.block u := by
      intro u hu
      exact Function.update_of_ne hu _ _
    refine ⟨line', place', ?_, P, S.kept.at_core S.places P c rfl hblock (fun _ _ => rfl) rfl hG
      (fun _ _ _ h hn => absurd h hn) (fun _ h => absurd rfl h)⟩
    refine S.control.in_block S.places.placed c ?_ rfl rfl (fun _ _ => rfl) hblock (fun _ _ => rfl)
      (fun _ _ => rfl) ?_
    · exact .chosen f next_tcb hc hat.1 (Function.update_self ..) hat.2 hn
    · intro g hg
      simp only [State.setBlock, Function.update_self, Block.action, Option.some.injEq] at hg
      subst hg
      exact hfits
  rcases S.places.take .readyQ with ⟨hl, hrem⟩ | ⟨n, l, qs, hl, hrem, T⟩
  · simp only [State.choose, State.remove, hrem] at h
    cases ho : f.blockOption with
    | canReturn =>
      rw [ho] at h
      dsimp only at h
      refine S.leaveBlock h hfits hat.1 rfl rfl hc (fun _ _ => rfl) rfl (by rw [hb]; rfl) ?_ rfl
        rfl ⟨line, place, S.places.same rfl rfl rfl, gains_refl s line⟩
      intro u hu
      exact Function.update_of_ne hu _ _
    | mustBlock =>
      rw [ho] at h
      by_cases hi : (s.stack c).isIdle = true
      · simp only [hi, if_true] at h
        split at h
        · injection h with h
          subst h
          exact ⟨line, place, S⟩
        · cases h
      · simp only [hi, Bool.false_eq_true, if_false, Option.some.injEq] at h
        subst h
        refine hchosen (.idle c) s.queues ?_ (S.places.same rfl
          (slot_setBlock_same s (by rw [hb]; rfl)) rfl) (gains_refl s line)
        intro d hd
        injection hd with hd
        exact ⟨hd.symm, by simpa using hi⟩
  · simp only [State.choose, State.remove, hrem, Option.some.injEq] at h
    subst h
    exact hchosen (.made n) qs (by simp) (S.places.fetch hl hslot T (slot_setBlock _ _ _) rfl)
      (gains_tail hl)

/-- `activeThreads` names the next thread: the old one is on its way out. -/
theorem activate (S : Sound reaper s line place) {f : Action I J} {next_tcb : TCB C N}
    (hc : s.callback c = none) (hb : s.block (s.stack c) = .chosen f next_tcb) :
    Ok reaper (s.activate c (s.stack c) f next_tcb) := by
  obtain ⟨ha, hn⟩ : s.activeThreads c = s.stack c ∧
      ∀ d, next_tcb = .idle d → d = c ∧ (s.stack c).isIdle = false := by
    cases S.control.core c with
    | chosen f' n h₁ h₂ h₃ h₄ h₅ =>
      rw [hb] at h₃
      cases h₃
      exact ⟨h₂, h₅⟩
    | code h₁ h₂ h₃ => rw [hb] at h₃; cases h₃
    | choosing f' h₁ h₂ h₃ h₄ => rw [hb] at h₃; cases h₃
    | switching f' h₁ h₂ h₃ h₄ => rw [hb] at h₂; cases h₂
    | callback k h₁ h₂ h₃ => rw [hc] at h₁; cases h₁
  have hslot : s.slot (.block (s.stack c)) = next_tcb.name := by
    show (s.block (s.stack c)).held = _
    rw [hb]
    rfl
  -- the next thread is on no other core, and is not the one that leaves
  have hoff : ∀ d, d ≠ c → ¬ OnCore s d next_tcb := by
    intro d hd h
    cases next_tcb with
    | idle e =>
      rw [(hn e rfl).1] at h
      cases h with
      | inl h => exact hd (S.control.idleStack d c h).symm
      | inr h => exact hd (S.control.idleActive d c h).symm
    | made n => exact S.places.not_onCore hslot (by simp) (by simp) d h
  have hne : next_tcb ≠ s.stack c := by
    intro h
    cases next_tcb with
    | idle e =>
      have := (hn e rfl).2
      rw [← h] at this
      cases this
    | made n => exact S.places.not_onCore hslot (by simp) (by simp) c (Or.inl h.symm)
  obtain ⟨place', P⟩ := S.places.activate ha hne hslot (f := f)
  have hblock : ∀ u, u ≠ s.stack c →
      (s.activate c (s.stack c) f next_tcb).block u = s.block u := by
    intro u hu
    exact Function.update_of_ne hu _ _
  refine ⟨line, place', ?_, P, S.kept.at_core S.places P c rfl hblock (fun _ _ => rfl) rfl
    (gains_refl s line) (fun _ _ _ h hn => absurd h hn) (fun _ h => absurd rfl h)⟩
  · refine S.control.at_core c ?_ (fun _ _ => rfl) ?_ (fun _ _ => rfl) ?_ ?_ ?_
      (S.control.idleStack c) ?_ ?_
    · refine .switching f hc ?_ ?_ ?_
      · simp [State.activate, State.setPreempt]
      · simpa [State.activate, State.setPreempt] using hne
      · simp [State.activate, State.setPreempt]
    · intro d hd
      exact Function.update_of_ne hd _ _
    · intro d hd
      refine Function.update_of_ne ?_ _ _
      intro h
      exact hd (S.control.onCore_inj S.places.placed (Or.inl h) (Or.inl rfl))
    · intro d hd u hu
      refine Function.update_of_ne ?_ _ _
      intro h
      exact hoff d hd (h ▸ hu)
    · intro u hu
      have hus : u ≠ s.stack c := fun h => hu c h.symm
      have h := S.control.parked u hu
      unfold Parked at h ⊢
      simpa [State.activate, hus] using h
    · intro d h
      simp only [State.activate, Function.update_self] at h
      exact (hn d h).1
    · intro u g h
      by_cases hu : u = s.stack c
      · subst hu
        simp only [State.activate, Function.update_self] at h
        exact S.control.fits _ g (by rw [hb]; exact h)
      · simp only [State.activate, Function.update_of_ne hu] at h
        exact S.control.fits u g h

/-- The switch: the core is on the stack of the next thread, with the callback to run. -/
theorem contextSwitch (S : Sound reaper s line place) {f : Action I J} {next_tcb : TCB C N}
    (hc : s.callback c = none) (hb : s.block (s.stack c) = .switching f next_tcb) :
    Ok reaper (s.contextSwitch c (s.stack c) f next_tcb) := by
  obtain ⟨rfl, hne⟩ : next_tcb = s.activeThreads c ∧ s.activeThreads c ≠ s.stack c := by
    cases S.control.core c with
    | switching f' h₁ h₂ h₃ h₄ =>
      rw [hb] at h₂
      cases h₂
      exact ⟨rfl, h₃⟩
    | code h₁ h₂ h₃ => rw [hb] at h₃; cases h₃
    | choosing f' h₁ h₂ h₃ h₄ => rw [hb] at h₃; cases h₃
    | chosen f' n h₁ h₂ h₃ h₄ h₅ => rw [hb] at h₃; cases h₃
    | callback k h₁ h₂ h₃ => rw [hc] at h₁; cases h₁
  have hinj : ∀ d, d ≠ c → ∀ u, OnCore s d u → u ≠ s.stack c ∧ u ≠ s.activeThreads c := by
    intro d hd u hu
    constructor
    · intro h
      exact hd (S.control.onCore_inj S.places.placed hu (Or.inl h.symm))
    · intro h
      exact hd (S.control.onCore_inj S.places.placed hu (Or.inr h.symm))
  -- the next thread was on no stack
  have hnext : Parked s (s.activeThreads c) := by
    refine S.control.parked _ fun d h => ?_
    by_cases hd : d = c
    · subst hd
      exact hne h.symm
    · exact (hinj d hd _ (Or.inl h)).2 rfl
  obtain ⟨place', P⟩ := S.places.contextSwitch (f := f) hc hne (by rw [hb]; rfl)
  -- the old thread is in no queue and in no hand
  have hoff : ∀ n, (∀ d, ¬ OnCore s d (.made n)) →
      (s.contextSwitch c (s.stack c) f (s.activeThreads c)).block (.made n) = s.block (.made n) := by
    intro n hn
    exact Function.update_of_ne (fun h => hn c (Or.inl h.symm)) _ _
  refine ⟨line, place', ?_, P, ?_, ?_, ?_, S.kept.dead⟩
  rotate_left
  · intro q n hn
    rw [hoff n (S.places.line_not_onCore hn)]
    exact S.kept.queue q n hn
  · intro d k n hd hh
    by_cases hdc : d = c
    · subst hdc
      simp only [State.contextSwitch, Function.update_self, Option.some.injEq] at hd
      subst hd
      rw [TCB.eq_made_of_name hh]
      simp [Callback.Keeps, State.contextSwitch, ← TCB.eq_made_of_name hh]
    · simp only [State.contextSwitch, Function.update_of_ne hdc, State.setPreempt] at hd
      have hp : s.slot (.callback d) = some n := by simp [State.slot, hd, hh]
      rw [hoff n (S.places.not_onCore hp (by simp) (by simp))]
      exact S.kept.callback d k n hd hh
  · intro u n hh
    rw [hoff n (S.places.not_onCore (p := .call u) hh (by simp) (by simp))]
    exact S.kept.call u n hh
  refine S.control.at_core c ?_ ?_ (fun _ _ => rfl) ?_ ?_ ?_ ?_ ?_ (S.control.idleActive c) ?_
  · refine .callback (.run f (s.stack c)) ?_ ?_ ?_
    · simp [State.contextSwitch]
    · simp [State.contextSwitch, State.setPreempt]
    · unfold Parked at hnext
      simpa [State.contextSwitch, hne] using hnext
  · intro d hd
    exact Function.update_of_ne hd _ _
  · intro d hd
    exact Function.update_of_ne hd _ _
  · intro d hd
    exact Function.update_of_ne (hinj d hd _ (Or.inl rfl)).1 _ _
  · intro d hd u hu
    have h := hinj d hd u hu
    simp [State.contextSwitch, State.setPreempt, Function.update_of_ne h.1,
      Function.update_of_ne h.2]
  · intro u hu
    by_cases hus : u = s.stack c
    · subst hus
      exact Or.inr ⟨f, by simp [State.contextSwitch]⟩
    · have h : Parked s u := by
        refine S.control.parked u fun d h => ?_
        by_cases hd : d = c
        · exact hus (h.symm.trans (by rw [hd]))
        · exact hu d ((Function.update_of_ne hd _ _).trans h)
      unfold Parked at h ⊢
      simpa [State.contextSwitch, hus] using h
  · intro d h
    simp only [State.contextSwitch, Function.update_self] at h
    exact S.control.idleActive c d h
  · intro u g h
    by_cases hu : u = s.stack c
    · subst hu
      simp only [State.contextSwitch, Function.update_self] at h
      exact S.control.fits _ g (by rw [hb]; exact h)
    · simp only [State.contextSwitch, Function.update_of_ne hu] at h
      exact S.control.fits u g h

/-- The handler returns. In `s₁` the callback has done everything else. -/
theorem resume (S : Sound reaper s line place) {s₁ : State C N I J} {k : Callback C N I J}
    (h : s₁.resume c = some s') (hk : s.callback c = some k) (hstack : s₁.stack = s.stack)
    (hactive : s₁.activeThreads = s.activeThreads)
    (hcd : ∀ d, d ≠ c → s₁.callback d = s.callback d) (hb : s₁.block = s.block)
    (hp : s₁.no_preempt = s.no_preempt) (hcall : s₁.call = s.call) (hv : s₁.live = s.live)
    (P : ∃ line' place', Places (s₁.setCallback c none) line' place' ∧ Gains s line line') :
    Ok reaper s' := by
  have hcn : ∀ d, d ≠ c → (s₁.setCallback c none).callback d = s.callback d := by
    intro d hd
    exact (Function.update_of_ne hd _ _).trans (hcd d hd)
  obtain ⟨ha, hbs⟩ : s.activeThreads c = s.stack c ∧
      (s.block (s.stack c) = .outside ∨ ∃ f, s.block (s.stack c) = .away f) := by
    cases S.control.core c with
    | callback k h₁ h₂ h₃ => exact ⟨h₂, h₃⟩
    | code h₁ h₂ h₃ => rw [hk] at h₁; cases h₁
    | choosing f' h₁ h₂ h₃ h₄ => rw [hk] at h₁; cases h₁
    | chosen f' n h₁ h₂ h₃ h₄ h₅ => rw [hk] at h₁; cases h₁
    | switching f' h₁ h₂ h₃ h₄ => rw [hk] at h₁; cases h₁
  rcases hbs with hbs | ⟨f, hbs⟩
  · simp only [State.resume, hb, hstack, hbs, Option.some.injEq] at h
    subst h
    obtain ⟨line', place', P, hG⟩ := P
    refine ⟨line', place', ?_, P, S.kept.at_core S.places P c hstack (fun u _ => congrFun hb u)
      (fun u _ => congrFun hcall u) hv hG ?_ (fun _ h => absurd (congrFun hcall _) h)⟩
    rotate_left
    · intro d k n hd hn _
      by_cases hdc : d = c
      · subst hdc
        simp [State.setCallback] at hd
      · rw [hcn d hdc] at hd
        exact absurd hd hn
    refine S.control.in_block S.places.placed c ?_ hstack hactive hcn
      (fun u _ => congrFun hb u) (fun u _ => congrFun hp u) (fun u _ => congrFun hcall u) ?_
    · refine .code (Function.update_self ..) ?_ ?_
      · show s₁.activeThreads c = s₁.stack c
        rw [hactive, hstack, ha]
      · show s₁.block (s₁.stack c) = .outside
        rw [hb, hstack, hbs]
    · intro g hg
      replace hg : (s₁.block (s.stack c)).action = some g := hg
      rw [hb, hbs] at hg
      cases hg
  · simp only [State.resume, hb, hstack, hbs] at h
    refine S.leaveBlock h (S.control.fits _ f (by rw [hbs]; rfl)) ha hstack hactive
      (Function.update_self ..) hcn hb (by rw [hbs]; rfl) (fun u _ => congrFun hp u) hcall hv P

/-! ## Callbacks

A callback has at most one thread in its hand, the one that has been left. Each case puts it
somewhere: in the queue of a semaphore or a condition, in the ready queue, with the dead, or back
in hand for the step that comes next. -/

theorem slot_callback {k : Callback C N I J} (hk : s.callback c = some k) :
    s.slot (.callback c) = k.held := by
  simp [State.slot, hk]

/-- The callback goes on to its next step. -/
theorem nextCallback (S : Sound reaper s line place) {k k' : Callback C N I J}
    (hk : s.callback c = some k) (hstack : s'.stack = s.stack)
    (hactive : s'.activeThreads = s.activeThreads)
    (hc : s'.callback = Function.update s.callback c (some k')) (hb : s'.block = s.block)
    (hp : s'.no_preempt = s.no_preempt) (hcall : s'.call = s.call) (hv : s'.live = s.live)
    (hkeep : ∀ n, k'.held = some n → k'.Keeps reaper (s.block (.made n)))
    (P : ∃ line' place', Places s' line' place' ∧ Gains s line line') : Ok reaper s' := by
  have hat : CoreAt s' c := by
    cases S.control.core c with
    | callback k h₁ h₂ h₃ =>
      exact .callback k' (by rw [hc, Function.update_self]) (by rw [hactive, hstack, h₂])
        (by rw [hb, hstack]; exact h₃)
    | code h₁ h₂ h₃ => rw [hk] at h₁; cases h₁
    | choosing f' h₁ h₂ h₃ h₄ => rw [hk] at h₁; cases h₁
    | chosen f' n h₁ h₂ h₃ h₄ h₅ => rw [hk] at h₁; cases h₁
    | switching f' h₁ h₂ h₃ h₄ => rw [hk] at h₁; cases h₁
  obtain ⟨line', place', P, hG⟩ := P
  refine ⟨line', place', ?_, P, S.kept.at_core S.places P c hstack (fun u _ => congrFun hb u)
    (fun u _ => congrFun hcall u) hv hG ?_ (fun _ h => absurd (congrFun hcall _) h)⟩
  · refine S.control.in_block S.places.placed c hat hstack hactive ?_ (fun u _ => congrFun hb u)
      (fun u _ => congrFun hp u) (fun u _ => congrFun hcall u) ?_
    · intro d hd
      rw [hc, Function.update_of_ne hd]
    · intro f hf
      rw [hb] at hf
      rw [hcall]
      exact S.control.fits _ f hf
  · intro d m n hd hn hh
    rw [hc] at hd
    by_cases hdc : d = c
    · subst hdc
      rw [Function.update_self, Option.some.injEq] at hd
      subst hd
      exact hkeep n hh
    · rw [Function.update_of_ne hdc] at hd
      exact absurd hd hn

/-- `schedule(me)`, and the handler returns. -/
theorem schedule_resume (S : Sound reaper s line place) {k : Callback C N I J} {me : TCB C N}
    (es : List (Event C N I J)) (hk : s.callback c = some k) (hme : k.held = me.name)
    (h : ((s.schedule me).emit es).resume c = some s') : Ok reaper s' :=
  S.resume h hk rfl rfl (fun _ _ => rfl) rfl rfl rfl rfl <|
    S.places.schedule (r := ((s.schedule me).emit es).setCallback c none)
      ((slot_callback hk).trans hme) rfl (slot_setCallback _ _ _) rfl

theorem put (S : Sound reaper s line place) {me : TCB C N}
    (hk : s.callback c = some (.run .stop me))
    (h : s.callbackStep reaper c (.run .stop me) = some s') : Ok reaper s' := by
  cases me with
  | idle d =>
    simp only [State.callbackStep, TCB.isIdle_idle, if_true] at h
    exact S.resume h hk rfl rfl (fun _ _ => rfl) rfl rfl rfl rfl ⟨line, place,
      S.places.same rfl (slot_setCallback_same s (by rw [hk]; rfl)) rfl, gains_refl s line⟩
  | made n =>
    simp only [State.callbackStep, TCB.isIdle_made, Bool.false_eq_true, if_false, State.tryLock] at h
    split at h
    · injection h with h
      subst h
      exact S.nextCallback hk rfl rfl rfl rfl rfl rfl rfl (by simp [Callback.held]) ⟨_, _,
        S.places.park .zombies (slot_callback hk) rfl (slot_setCallback _ _ _) rfl,
        gains_append (S.kept.callback c _ n hk rfl)⟩
    · cases h

theorem reaperNotify (S : Sound reaper s line place) (hk : s.callback c = some .notify)
    (h : s.callbackStep reaper c .notify = some s') : Ok reaper s' := by
  rcases S.places.take (.queue reaper) with ⟨hl, hrem⟩ | ⟨n, l, qs, hl, hrem, T⟩
  · simp only [State.callbackStep, State.remove, State.setEpoch, State.emit, hrem,
      Option.some.injEq] at h
    subst h
    exact S.nextCallback hk rfl rfl rfl rfl rfl rfl rfl (by simp [Callback.held]) ⟨line, place,
      S.places.same rfl (slot_setCallback_same s (by rw [hk]; rfl)) rfl, gains_refl s line⟩
  · simp only [State.callbackStep, State.remove, State.setEpoch, State.emit, hrem,
      Option.some.injEq] at h
    subst h
    refine S.nextCallback hk rfl rfl rfl rfl rfl rfl rfl ?_ ⟨_, _,
      S.places.fetch hl (slot_callback hk) T (slot_setCallback _ _ _) rfl, gains_tail hl⟩
    intro m hm
    injection hm with hm
    subst hm
    exact S.kept.queue (.queue reaper) n (by rw [hl]; exact List.mem_cons_self)

theorem downAgain (S : Sound reaper s line place) {i : I} {me : TCB C N}
    (hk : s.callback c = some (.run (.down i) me)) (h : s.downAgain c i me = some s') :
    Ok reaper s' := by
  cases me with
  | idle d => simp [State.downAgain] at h
  | made n =>
    simp only [State.downAgain, TCB.isIdle_made, Bool.false_eq_true, if_false] at h
    split at h
    · injection h with h
      subst h
      exact S.nextCallback hk rfl rfl rfl rfl rfl rfl rfl (fun m hm => S.kept.callback c (.run (.down i) (.made n)) m hk hm)
        ⟨line, place, S.places.same rfl (slot_setCallback_same s (by rw [hk]; rfl)) rfl,
          gains_refl s line⟩
    · exact S.resume h hk rfl rfl (fun _ _ => rfl) rfl rfl rfl rfl ⟨_, _,
        S.places.park (.waiting i) (slot_callback hk) rfl (slot_setCallback _ _ _) rfl,
        gains_append (S.kept.callback c _ n hk rfl)⟩

theorem waitAgain (S : Sound reaper s line place) {j : J} {e : BitVec 64} {me : TCB C N}
    (hk : s.callback c = some (.run (.wait j e) me)) (h : s.waitAgain c j e me = some s') :
    Ok reaper s' := by
  cases me with
  | idle d => simp [State.waitAgain] at h
  | made n =>
    simp only [State.waitAgain, TCB.isIdle_made, Bool.false_eq_true, if_false] at h
    split at h
    · cases h
    · split at h
      · cases h
      · split at h
        · exact S.resume h hk rfl rfl (fun _ _ => rfl) rfl rfl rfl rfl ⟨_, _,
            S.places.park (.queue j) (slot_callback hk) rfl (slot_setCallback _ _ _) rfl,
            gains_append ⟨e, S.kept.callback c _ n hk rfl⟩⟩
        · injection h with h
          subst h
          exact S.nextCallback hk rfl rfl rfl rfl rfl rfl rfl
            (fun m hm => ⟨e, S.kept.callback c _ m hk hm⟩)
            ⟨line, place, S.places.same rfl (slot_setCallback_same s (by rw [hk]; rfl)) rfl,
              gains_refl s line⟩

theorem callbackStep (S : Sound reaper s line place) {k : Callback C N I J}
    (hk : s.callback c = some k) (h : s.callbackStep reaper c k = some s') : Ok reaper s' := by
  cases k with
  | run f me =>
    cases f with
    | yield => exact S.schedule_resume [] hk rfl (by rw [State.emit_nil]; exact h)
    | stop => exact S.put hk h
    | down i => exact S.downAgain hk h
    | wait j e => exact S.waitAgain hk h
  | granted i me => exact S.schedule_resume _ hk rfl h
  | missed j me => exact S.schedule_resume [] hk rfl (by rw [State.emit_nil]; exact h)
  | notify => exact S.reaperNotify hk h
  | rouse next =>
    injection h with h
    subst h
    exact S.nextCallback hk rfl rfl rfl rfl rfl rfl rfl (by simp [Callback.held]) <|
      S.places.schedule (r := (s.schedule next).setCallback c (some .unlock))
        (slot_callback hk) rfl (slot_setCallback _ _ _) rfl
  | unlock =>
    exact S.resume h hk rfl rfl (fun _ _ => rfl) rfl rfl rfl rfl ⟨line, place,
      S.places.same rfl (slot_setCallback_same s (by rw [hk]; rfl)) rfl, gains_refl s line⟩

/-! ## Calls

What a thread does between two calls of `block` moves at most what it has in its own hand: `up()`
and `notify()` schedule what they took out of a queue, the reaper deletes. -/

/-- A step of the code of `t`, which may change what `t` is calling. -/
theorem code_call (S : Sound reaper s line place) (hr : s.running c = some t) {k : Call C N I J}
    (hstack : s'.stack = s.stack) (hactive : s'.activeThreads = s.activeThreads)
    (hc : s'.callback = s.callback) (hb : s'.block = s.block) (hp : s'.no_preempt = s.no_preempt)
    (hcall : s'.call = Function.update s.call t k) (hv : s'.live = s.live)
    (hkeep : ∀ n, k.held = some n → k.Keeps (s.block (.made n)))
    (P : ∃ line' place', Places s' line' place' ∧ Gains s line line') : Ok reaper s' := by
  obtain ⟨-, hbt, rfl⟩ := running_iff.mp hr
  have hne : ∀ u, u ≠ s.stack c → s'.call u = s.call u := by
    intro u hu
    rw [hcall, Function.update_of_ne hu]
  obtain ⟨line', place', P, hG⟩ := P
  refine ⟨line', place', ?_, P, S.kept.at_core S.places P c hstack (fun u _ => congrFun hb u) hne hv
    hG (fun d k n h hn => absurd (by rw [← hc]; exact h) hn) ?_⟩
  · refine S.control.same hstack hactive hc hb hp fun u f hu => hne u ?_
    intro hut
    rw [hut, hbt] at hu
    cases hu
  · intro n _ hh
    rw [hcall, Function.update_self] at hh ⊢
    exact hkeep n hh

/-- A step of the code of `t` that leaves its call. -/
theorem code_same (S : Sound reaper s line place) (hr : s.running c = some t)
    (hq : s'.queues = s.queues) (hstack : s'.stack = s.stack)
    (hactive : s'.activeThreads = s.activeThreads)
    (hc : s'.callback = s.callback) (hb : s'.block = s.block) (hp : s'.no_preempt = s.no_preempt)
    (hcall : s'.call = s.call) (hv : s'.live = s.live) : Ok reaper s' := by
  have hslot : s'.slot = s.slot := by
    funext p
    cases p <;> simp only [State.slot, hactive, hstack, hc, hcall, hb]
  exact S.code_call hr hstack hactive hc hb hp
    (by rw [hcall]; exact (Function.update_eq_self t s.call).symm) hv
    (fun n => S.kept.call t n) ⟨line, place, S.places.same hq hslot hv, gains_refl s line⟩

/-- `schedule` of what the call has in its hand. -/
theorem schedule_call (S : Sound reaper s line place) (hr : s.running c = some t) {k : Call C N I J}
    (next : TCB C N) (es : List (Event C N I J)) (hk : (s.call t).held = next.name)
    (hn : k.held = none) : Ok reaper (((s.schedule next).emit es).setCall t k) :=
  S.code_call hr rfl rfl rfl rfl rfl rfl rfl (by simp [hn]) <|
    S.places.schedule (r := ((s.schedule next).emit es).setCall t k) (p := .call t) hk rfl
      (by rw [slot_setCall, hn]; rfl) rfl

/-- `delete` of a thread the reaper has in its hand. -/
theorem delete (S : Sound reaper s line place) (hr : s.running c = some t) {n : N}
    (hk : s.call t = .deleting (.made n)) : Ok reaper ((s.setLive n false).setCall t .none) := by
  obtain ⟨hc, hbt, rfl⟩ := running_iff.mp hr
  have hheld : s.slot (.call (s.stack c)) = some n := by simp [State.slot, hk, Call.held]
  have P : Places ((s.setLive n false).setCall (s.stack c) .none) line _ :=
    S.places.drop hheld rfl (slot_setCall _ _ _) rfl
  have hne : ∀ u, u ≠ s.stack c →
      ((s.setLive n false).setCall (s.stack c) .none).call u = s.call u := by
    intro u hu
    exact Function.update_of_ne hu _ _
  refine ⟨line, _, ?_, P, ?_, ?_, ?_, ?_⟩
  · refine S.control.same rfl rfl rfl rfl rfl fun u f hu => hne u ?_
    intro hut
    rw [hut, hbt] at hu
    cases hu
  · exact S.kept.queue
  · exact S.kept.callback
  · intro u m hh
    by_cases hu : u = s.stack c
    · subst hu
      simp [State.setCall, Call.held] at hh
    · rw [hne u hu] at hh ⊢
      exact S.kept.call u m hh
  · intro m hm
    have hmc : TCB.made m ≠ s.stack c := by
      intro h
      by_cases hmn : m = n
      · subst hmn
        exact S.places.not_onCore hheld (by simp) (by simp) c (Or.inl h.symm)
      · refine S.places.dead_not_onCore (n := m) ?_ c (Or.inl h.symm)
        simpa [State.setCall, State.setLive, hmn] using hm
    rw [hne _ hmc]
    by_cases hmn : m = n
    -- a thread that is deleted has called `stop`
    · subst hmn
      have hb : s.block (.made m) = .away .stop := by
        have h := S.kept.call _ m hheld
        rwa [hk] at h
      have hf : s.call (.made m) = .stopping := S.control.fits _ .stop (by rw [hb]; rfl)
      exact Or.inr hf
    · exact S.kept.dead m (by simpa [State.setCall, State.setLive, hmn] using hm)

theorem callStep (S : Sound reaper s line place) (hr : s.running c = some t)
    (h : s.callStep c t (s.call t) = some s') : Ok reaper s' := by
  cases hk : s.call t with
  | none => rw [hk] at h; cases h
  | creating n =>
    rw [hk] at h
    injection h with h
    subst h
    have := S.schedule_call hr (.made n) [] (k := .none) (by rw [hk]; rfl) rfl
    rwa [State.emit_nil] at this
  | deleting it =>
    rw [hk] at h
    cases it with
    | idle d => cases h
    | made n =>
      injection h with h
      subst h
      exact S.delete hr hk
  | stopping =>
    rw [hk] at h
    injection h with h
    subst h
    exact ⟨line, place, S.enterBlock hr hk⟩
  | down i =>
    rw [hk] at h
    injection h with h
    subst h
    exact ⟨line, place, S.enterBlock hr hk⟩
  | up i next =>
    rw [hk] at h
    injection h with h
    subst h
    exact S.schedule_call hr next _ (by rw [hk]; rfl) rfl
  | wait j e =>
    rw [hk] at h
    injection h with h
    subst h
    exact ⟨line, place, S.enterBlock hr hk⟩
  | relock j =>
    rw [hk] at h
    simp only [State.callStep, State.tryLock] at h
    split at h
    · injection h with h
      subst h
      exact S.code_call hr rfl rfl rfl rfl rfl rfl rfl (by simp [Call.held]) ⟨line, place,
        S.places.same rfl (slot_setCall_same s (by rw [hk]; rfl)) rfl, gains_refl s line⟩
    · cases h
  | notify j limit i =>
    rw [hk] at h
    have hdone : Ok reaper ((s.emit [.notified j]).setCall t .none) :=
      S.code_call hr rfl rfl rfl rfl rfl rfl rfl (by simp [Call.held]) ⟨line, place,
        S.places.same rfl (slot_setCall_same s (by rw [hk]; rfl)) rfl, gains_refl s line⟩
    by_cases hi : i < limit
    · rcases S.places.take (.queue j) with ⟨hl, hrem⟩ | ⟨n, l, qs, hl, hrem, T⟩
      · simp only [State.callStep, hi, if_true, State.remove, hrem, Option.some.injEq] at h
        subst h
        exact hdone
      · simp only [State.callStep, hi, if_true, State.remove, hrem, Option.some.injEq] at h
        subst h
        refine S.code_call hr rfl rfl rfl rfl rfl rfl rfl ?_ ⟨_, _, S.places.fetch (p := .call t) hl
          (by simp [State.slot, hk, Call.held]) T (slot_setCall _ _ _) rfl, gains_tail hl⟩
        intro m hm
        injection hm with hm
        subst hm
        exact S.kept.queue (.queue j) n (by rw [hl]; exact List.mem_cons_self)
    · simp only [State.callStep, hi, if_false, Option.some.injEq] at h
      subst h
      exact hdone
  | rouse j limit i next =>
    rw [hk] at h
    injection h with h
    subst h
    have := S.schedule_call hr next [] (k := .notify j limit (i + 1)) (by rw [hk]; rfl) rfl
    rwa [State.emit_nil] at this

/-! ## What the code of a thread can call

The beginnings of calls. A new thread is in the hand of its maker until `schedule` puts it in the
ready queue; `up()` and the reaper take one out of a queue. `Ok.step` is the invariant for all
labels, and is what the results about semaphores and conditions build on: they use where a thread
is, and never look at a queue's links again. -/

theorem create (S : Sound reaper s line place) {n : N} (hf : s.free c = some t)
    (h : s.create t n = some s') : Ok reaper s' := by
  obtain ⟨hr, hk⟩ := free_iff.mp hf
  obtain ⟨hc, hbt, rfl⟩ := running_iff.mp hr
  unfold State.create at h
  split at h
  · cases h
  rename_i hv
  injection h with h
  -- `new` gives an address that is not in use, so the thread there is on no core and in no queue
  have hv : s.live n = false := by simpa using hv
  have hoff := S.places.dead_not_onCore hv
  have hne : TCB.made n ≠ s.stack c := fun h => hoff c (Or.inl h.symm)
  have hblock : ∀ u, u ≠ .made n → s'.block u = s.block u := by
    intro u hu
    rw [← h]
    exact Function.update_of_ne hu _ _
  have hpre : ∀ u, u ≠ .made n → s'.no_preempt u = s.no_preempt u := by
    intro u hu
    rw [← h]
    exact Function.update_of_ne hu _ _
  have hcall : ∀ u, u ≠ .made n → u ≠ s.stack c → s'.call u = s.call u := by
    intro u hu huc
    rw [← h]
    exact (Function.update_of_ne huc _ _).trans (Function.update_of_ne hu _ _)
  have hnew : s'.block (.made n) = .outside ∧ s'.call (.made n) = .none ∧
      s'.call (s.stack c) = .creating n := by
    rw [← h]
    refine ⟨Function.update_self .., ?_, Function.update_self ..⟩
    exact (Function.update_of_ne hne _ _).trans (Function.update_self ..)
  have hslot : s'.slot = Function.update s.slot (.call (s.stack c)) (some n) := by
    rw [← h, slot_setCall, slot_setCall_same, slot_setBlock_same]
    · rfl
    · show (s.block (.made n)).held = none
      rcases S.control.parked (.made n) fun d hd => hoff d (Or.inl hd) with hb | ⟨f, hb⟩ <;>
        (rw [hb]; rfl)
    · rcases S.kept.dead n hv with hd | hd <;> (show (s.call (.made n)).held = none; rw [hd]; rfl)
  -- the new thread is in the hand of its creator until `schedule`
  have P : Places s' line _ :=
    S.places.enter hv (by simp [State.slot, hk, Call.held]) (by rw [← h]; rfl) hslot
      (by rw [← h]; rfl)
  have hoff' : ∀ d u, OnCore s d u → u ≠ .made n := by
    intro d u hu hun
    exact hoff d (hun ▸ hu)
  have hstack : s'.stack = s.stack := by rw [← h]; rfl
  have hactive : s'.activeThreads = s.activeThreads := by rw [← h]; rfl
  refine ⟨line, _, ⟨?_, ?_, ?_, ?_, ?_⟩, P, ?_, ?_, ?_, ?_⟩
  · intro d
    refine (S.control.core d).congr (by rw [hstack]) (by rw [hactive]) (by rw [← h]; rfl) ?_ ?_
    · exact hblock _ (hoff' d _ (Or.inl rfl))
    · intro u hu
      exact hpre u (hoff' d u hu)
  · intro u hu
    by_cases hun : u = .made n
    · subst hun
      exact Or.inl hnew.1
    · have h := S.control.parked u fun d => by rw [← hstack]; exact hu d
      unfold Parked at h ⊢
      rwa [hblock u hun]
  · intro d e hd
    exact S.control.idleStack d e (by rw [← hstack]; exact hd)
  · intro d e hd
    exact S.control.idleActive d e (by rw [← hactive]; exact hd)
  · intro u f hu
    by_cases hun : u = .made n
    · subst hun
      rw [hnew.1] at hu
      cases hu
    · rw [hblock u hun] at hu
      have huc : u ≠ s.stack c := by
        intro huc
        rw [huc, hbt] at hu
        cases hu
      rw [hcall u hun huc]
      exact S.control.fits u f hu
  · intro q m hm
    rw [hblock]
    · exact S.kept.queue q m hm
    · intro hmn
      injection hmn with hmn
      have := (S.places.placed.inLine q m).mp hm
      have hl := (S.places.live m).mpr (by rw [this]; simp)
      rw [hmn, hv] at hl
      cases hl
  · intro d k m hd hh
    have hd' : s.callback d = some k := by rw [← h] at hd; exact hd
    rw [hblock]
    · exact S.kept.callback d k m hd' hh
    · intro hmn
      injection hmn with hmn
      have := (S.places.placed.inSlot (.callback d) m).mp (by simp [State.slot, hd', hh])
      have hl := (S.places.live m).mpr (by rw [this]; simp)
      rw [hmn, hv] at hl
      cases hl
  · intro u m hh
    by_cases huc : u = s.stack c
    · subst huc
      rw [hnew.2.2] at hh ⊢
      injection hh with hh
      subst hh
      exact hnew.1
    · by_cases hun : u = .made n
      · subst hun
        rw [hnew.2.1] at hh
        cases hh
      · rw [hcall u hun huc] at hh ⊢
        rw [hblock]
        · exact S.kept.call u m hh
        · intro hmn
          injection hmn with hmn
          have := (S.places.placed.inSlot (.call u) m).mp hh
          have hl := (S.places.live m).mpr (by rw [this]; simp)
          rw [hmn, hv] at hl
          cases hl
  · intro m hm
    have hmn : m ≠ n := by
      intro hmn
      subst hmn
      rw [← h] at hm
      simp [State.setCall, State.setBlock, State.setPreempt, State.setLive] at hm
    have hmd : s.live m = false := by
      rw [← h] at hm
      simpa [State.setCall, State.setBlock, State.setPreempt, State.setLive, hmn] using hm
    rw [hcall _ (by simpa using hmn) fun h => S.places.dead_not_onCore hmd c (Or.inl h.symm)]
    exact S.kept.dead m hmd

theorem reap (S : Sound reaper s line place) (hf : s.free c = some t) : Ok reaper (s.reap t) := by
  obtain ⟨hr, hk⟩ := free_iff.mp hf
  rcases S.places.take .zombies with ⟨hl, hrem⟩ | ⟨n, l, qs, hl, hrem, T⟩
  · simp only [State.reap, State.remove, hrem]
    exact ⟨line, place, S⟩
  · simp only [State.reap, State.remove, hrem]
    refine S.code_call hr rfl rfl rfl rfl rfl rfl rfl ?_ ⟨_, _, S.places.fetch (p := .call t) hl
      (by simp [State.slot, hk, Call.held]) T (slot_setCall _ _ _) rfl, gains_tail hl⟩
    intro m hm
    injection hm with hm
    subst hm
    exact S.kept.queue .zombies n (by rw [hl]; exact List.mem_cons_self)

theorem up (S : Sound reaper s line place) {i : I} (hf : s.free c = some t) :
    Ok reaper (s.up t i) := by
  obtain ⟨hr, hk⟩ := free_iff.mp hf
  rcases S.places.take (.waiting i) with ⟨hl, hrem⟩ | ⟨n, l, qs, hl, hrem, T⟩
  · simp only [State.up, State.remove, hrem]
    exact S.code_same hr rfl rfl rfl rfl rfl rfl rfl rfl
  · simp only [State.up, State.remove, hrem]
    refine S.code_call hr rfl rfl rfl rfl rfl rfl rfl ?_ ⟨_, _, S.places.fetch (p := .call t) hl
      (by simp [State.slot, hk, Call.held]) T (slot_setCall _ _ _) rfl, gains_tail hl⟩
    intro m hm
    injection hm with hm
    subst hm
    exact S.kept.queue (.waiting i) n (by rw [hl]; exact List.mem_cons_self)

/-- A call that takes nothing in its hand. -/
theorem begin_call (S : Sound reaper s line place) (hf : s.free c = some t) {k : Call C N I J}
    {s₁ : State C N I J} (hq : s₁.queues = s.queues) (hstack : s₁.stack = s.stack)
    (hactive : s₁.activeThreads = s.activeThreads) (hc : s₁.callback = s.callback)
    (hb : s₁.block = s.block) (hp : s₁.no_preempt = s.no_preempt) (hcall : s₁.call = s.call)
    (hv : s₁.live = s.live) (hn : k.held = none) : Ok reaper (s₁.setCall t k) := by
  obtain ⟨hr, hk⟩ := free_iff.mp hf
  have hslot : s₁.slot = s.slot := by
    funext p
    cases p <;> simp only [State.slot, hactive, hstack, hc, hcall, hb]
  refine S.code_call hr hstack hactive hc hb hp (k := k) ?_ hv (by simp [hn]) ⟨line, place,
    S.places.same hq ?_ hv, gains_refl s line⟩
  · show Function.update s₁.call t k = _
    rw [hcall]
  · rw [slot_setCall_same s₁ (by rw [hcall, hk, hn]; rfl), hslot]

theorem go (S : Sound reaper s line place) (h : s.go reaper c = some s') : Ok reaper s' := by
  unfold State.go at h
  cases hc : s.callback c with
  | some k =>
    rw [hc] at h
    exact S.callbackStep hc h
  | none =>
    rw [hc] at h
    dsimp only at h
    cases hb : s.block (s.stack c) with
    | outside =>
      rw [hb] at h
      exact S.callStep (running_iff.mpr ⟨hc, hb, rfl⟩) h
    | choosing f =>
      rw [hb] at h
      exact S.choose hc hb h
    | chosen f next_tcb =>
      rw [hb] at h
      injection h with h
      subst h
      exact S.activate hc hb
    | switching f next_tcb =>
      rw [hb] at h
      injection h with h
      subst h
      exact S.contextSwitch hc hb
    | away f =>
      rw [hb] at h
      cases h

/-- The timer does not get into `block`: no thread there may be preempted. -/
theorem timer_cases (S : Sound reaper s line place) (h : s.timer c = some s') :
    s = s' ∨ s.running c = some (s.stack c) ∧ s.enterBlock c .yield = s' := by
  unfold State.timer at h
  cases hc : s.callback c with
  | some k => rw [hc] at h; cases h
  | none =>
    rw [hc] at h
    dsimp only at h
    split at h
    · injection h with h
      exact Or.inl h
    · rename_i hp
      injection h with h
      have hp : s.no_preempt (s.activeThreads c) = false := by
        cases hq : s.no_preempt (s.activeThreads c) with
        | false => rfl
        | true => exact absurd (Or.inr hq) hp
      refine Or.inr ⟨running_iff.mpr ⟨hc, ?_, rfl⟩, h⟩
      cases S.control.core c with
      | code h₁ h₂ h₃ => exact h₃
      | choosing f h₁ h₂ h₃ h₄ => rw [h₂, h₄] at hp; cases hp
      | chosen f n h₁ h₂ h₃ h₄ h₅ => rw [h₂, h₄] at hp; cases hp
      | switching f h₁ h₂ h₃ h₄ => rw [h₄] at hp; cases hp
      | callback k h₁ h₂ h₃ => rw [hc] at h₁; cases h₁

theorem timer (S : Sound reaper s line place) (h : s.timer c = some s') : Ok reaper s' := by
  rcases S.timer_cases h with rfl | ⟨hr, rfl⟩
  · exact ⟨line, place, S⟩
  · exact ⟨line, place, S.enterBlock hr trivial⟩

end Sound

/-- Every step keeps every thread in one place. -/
theorem Ok.step {reaper : J} {s s' : State C N I J} (h : Ok reaper s) {l : Label C N I J}
    (hs : step reaper s l = some s') : Ok reaper s' := by
  obtain ⟨line, place, S⟩ := h
  cases l with
  | go c => exact S.go hs
  | timer c => exact S.timer hs
  | create c n =>
    obtain ⟨t, hf, h⟩ := Option.bind_eq_some_iff.mp hs
    exact S.create hf h
  | reap c =>
    obtain ⟨t, hf, h⟩ := Option.map_eq_some_iff.mp hs
    subst h
    exact S.reap hf
  | yield c =>
    obtain ⟨t, hf, h⟩ := Option.map_eq_some_iff.mp hs
    subst h
    exact ⟨line, place, S.enterBlock (free_iff.mp hf).1 trivial⟩
  | stop c =>
    obtain ⟨t, hf, h⟩ := Option.map_eq_some_iff.mp hs
    subst h
    exact S.begin_call hf rfl rfl rfl rfl rfl rfl rfl rfl rfl
  | down c i =>
    obtain ⟨t, hf, h⟩ := Option.map_eq_some_iff.mp hs
    subst h
    unfold State.down
    split
    · exact S.code_same (free_iff.mp hf).1 rfl rfl rfl rfl rfl rfl rfl rfl
    · exact S.begin_call hf rfl rfl rfl rfl rfl rfl rfl rfl rfl
  | up c i =>
    obtain ⟨t, hf, h⟩ := Option.map_eq_some_iff.mp hs
    subst h
    exact S.up hf
  | lock c j =>
    obtain ⟨t, hf, h⟩ := Option.bind_eq_some_iff.mp hs
    unfold State.tryLock at h
    split at h
    · injection h with h
      subst h
      exact S.code_same (free_iff.mp hf).1 rfl rfl rfl rfl rfl rfl rfl rfl
    · cases h
  | unlock c j =>
    obtain ⟨t, hr, h⟩ := Option.bind_eq_some_iff.mp hs
    unfold State.unlock at h
    split at h
    all_goals try cases h
    all_goals
      split at h
      · injection h with h
        subst h
        exact S.code_same hr rfl rfl rfl rfl rfl rfl rfl rfl
      · cases h
  | wait c j =>
    obtain ⟨t, hf, h⟩ := Option.bind_eq_some_iff.mp hs
    unfold State.wait at h
    split at h
    · injection h with h
      subst h
      exact S.begin_call hf rfl rfl rfl rfl rfl rfl rfl rfl rfl
    · cases h
  | notify c j limit =>
    obtain ⟨t, hf, h⟩ := Option.bind_eq_some_iff.mp hs
    unfold State.notify at h
    split at h
    · injection h with h
      subst h
      exact S.begin_call hf rfl rfl rfl rfl rfl rfl rfl rfl rfl
    · cases h

/-! ## From the first state on -/

theorem Ok.init (reaper : J) (next : TCB C N → Option (TCB C N)) (count : I → BitVec 32) :
    Ok reaper (State.init next count : State C N I J) := by
  refine ⟨fun _ => [], fun _ => .nowhere, ⟨?_, ?_, ?_, ?_, ?_⟩, ⟨?_, ⟨?_, ?_, ?_⟩, ?_⟩, ?_, ?_, ?_, ?_⟩
  · intro c
    exact .code rfl rfl rfl
  · intro t _
    exact Or.inl rfl
  · intro c d h
    injection h with h
    exact h.symm
  · intro c d h
    injection h with h
    exact h.symm
  · intro t f h
    cases h
  · exact Threaded.empty next
  · intro p n
    cases p <;> simp [State.slot, State.init, Call.held, Block.held]
  · intro q n
    simp
  · intro q
    exact List.nodup_nil
  · intro n
    simp [State.init]
  · intro q n h
    simp at h
  · intro c k n h
    cases h
  · intro t n h
    cases h
  · intro n _
    exact Or.inl rfl

theorem Ok.runs {reaper : J} {s s' : State C N I J} (h : Ok reaper s) {labels : List (Label C N I J)}
    (hr : runs (Threads.step reaper) s labels = some s') : Ok reaper s' :=
  runs_inv (Ok reaper) (fun _ _ _ h _ hs => Ok.step h hs) h (RunOk.of_forall (fun _ _ => trivial) _ _)
    hr

/-- The place shows the thread; `queue` is what the queues hold. -/
def State.Shows (s : State C N I J) (queue : QueueId I J → List (TCB C N)) (n : N) :
    Place (Slot C N) (QueueId I J) → Prop
  | .nowhere => False
  | .slot p => s.slot p = some n
  | .line q => .made n ∈ queue q

/-- Whatever the cores do: the queues hold lists of threads in which no thread is twice and no
idle thread is, and a thread that has been made and not deleted is in one queue, active on one
core, or in the hand of one call or callback, and in nothing else. -/
theorem every_thread_in_one_place (reaper : J) (next : TCB C N → Option (TCB C N))
    (count : I → BitVec 32) (labels : List (Label C N I J)) (s : State C N I J)
    (hr : runs (step reaper) (State.init next count) labels = some s) :
    ∃ queue : QueueId I J → List (TCB C N), Threaded s.queues queue ∧
      (∀ q c, .idle c ∉ queue q) ∧
      ∀ n, (s.live n = true → ∃! p, s.Shows queue n p) ∧
        (s.live n = false → ∀ p, ¬ s.Shows queue n p) := by
  obtain ⟨line, place, S⟩ := (Ok.init reaper next count).runs hr
  have hshows : ∀ n p, s.Shows (fun q => (line q).map TCB.made) n p ↔ p ≠ .nowhere ∧ place n = p := by
    intro n p
    cases p with
    | nowhere => simp [State.Shows]
    | slot p => simp [State.Shows, S.places.placed.inSlot]
    | line q => simp [State.Shows, S.places.placed.inLine]
  refine ⟨_, S.places.threaded, ?_, ?_⟩
  · intro q c h
    obtain ⟨n, -, hn⟩ := List.mem_map.mp h
    cases hn
  · intro n
    constructor
    · intro hl
      refine ⟨place n, (hshows n _).mpr ⟨(S.places.live n).mp hl, rfl⟩, ?_⟩
      intro p hp
      exact ((hshows n p).mp hp).2.symm
    · intro hl p hp
      obtain ⟨hne, rfl⟩ := (hshows n p).mp hp
      rw [(S.places.live n).mpr hne] at hl
      cases hl

/-- A thread is made, gets the core from the idle thread, and waits for a semaphore that is 0. -/
def waitingRun : List (Label Bool Nat Unit Unit) :=
  [.create false 7, .go false, .yield false, .go false, .go false, .go false, .go false,
    .down false (), .go false, .go false, .go false, .go false, .go false]

theorem every_thread_in_one_place_waiting :
    ∃ s, runs (step ()) (State.init (fun _ => none) fun _ => 0#32) waitingRun = some s ∧
      ∃ queue, Threaded s.queues queue ∧ (∀ q c, .idle c ∉ queue q) ∧
        (∃! p, s.Shows queue 7 p) ∧ .made 7 ∈ queue (.waiting ()) := by
  have hobs : (runs (step ()) (State.init (fun _ => none) fun _ => 0#32) waitingRun).map
      (fun s => (s.live 7, (s.queues.ends (.waiting ())).first)) = some (true, some (.made 7)) := by
    decide
  obtain ⟨s, hs, hlive⟩ := Option.map_eq_some_iff.mp hobs
  injection hlive with hlive hfirst
  obtain ⟨queue, T, hidle, hplace⟩ := every_thread_in_one_place () _ _ _ s hs
  refine ⟨s, hs, queue, T, hidle, (hplace 7).1 hlive, ?_⟩
  rw [T.first] at hfirst
  exact List.mem_of_head? hfirst

end OsKernel.Threads
