import Mathlib.Tactic.Ring
import OsKernel.Barrier.Model

/-!
# One token for both semaphores

At any time one thread may touch `count`: the one that has been granted `mut` and has not
given it back, or, from the last arrival of a group to its last leave, the one that has been
granted `sem`. The token is with a thread or free in one of the semaphores, and it changes
from `mut` to `sem` when the group is full and back when the group has left. `Inv` says this,
and how arrivals, passes and leaves count.

`Control` is the part about queues: who is in one is waiting for it and is there once, who is
in the hand of an `up()` is in one hand. `Books` is the part about the token and the numbers,
with the semaphore whose turn it is (`k`) and the token (`w`) as parameters. So a step is told
by what it does to those two, and the five things that can happen to the token are five
lemmas.

The numbers give the generations. `arrivals` divided by the size of a group is the number of
the group, and `turn` is a thread's place in it; that threads of two groups are never inside
at the same time comes out of the arithmetic, with nothing about groups in the state.
-/

set_option autoImplicit false
set_option linter.unusedSectionVars false

namespace OsKernel.Barrier

variable {T : Type}

namespace Pc

/-- The thread has the token of the semaphore. -/
def holds : Pc T → Option Sem
  | granted k | rescheduled k | past k | loaded k _ | up k _ => some k
  | _ => none

/-- The thread has arrived and has not left. -/
def member : Pc T → Bool
  | up _ leaving | schedule _ _ leaving => !leaving
  | down k | again k | waiting k | granted k | rescheduled k | past k | loaded k _ => k = .sem
  | outside => false

/-- The thread has been let through `sem` and has not left. -/
def passing : Pc T → Bool
  | granted k | rescheduled k | past k | loaded k _ => k = .sem
  | _ => false

/-- Neither in a queue, nor in a hand, nor with a thread in hand. -/
def plain : Pc T → Bool
  | waiting _ | granted _ | schedule _ _ _ => false
  | _ => true

end Pc

/-- Where the token is. -/
inductive Token (T : Type)
  | free
  | held (t : T)

/-- What the token's holder adds to the passes. -/
def Token.pass (pc : T → Pc T) : Token T → Nat
  | free => 0
  | held t => if (pc t).passing then 1 else 0

theorem Token.pass_held (pc : T → Pc T) (t : T) :
    (Token.held t).pass pc = if (pc t).passing then 1 else 0 := rfl

/-! ## Queues and hands

What the two queues have to do with where the threads are, without any numbers. A thread that
`up()` has taken out of a queue is in no queue and in one hand until it is scheduled, so the
section of `up()` and its `schedule` are two steps here and other threads run between them.

The rules are those of a step that has nothing to do with queues (`setPc` between plain places), a
thread that joins one, one that is taken out, and one that is scheduled. -/

structure Control (s : State T) : Prop where
  waiting : ∀ t k, s.pc t = .waiting k ↔ t ∈ s.waiting k
  nodup : ∀ k, (s.waiting k).Nodup
  hand : ∀ u n k l, s.pc u = .schedule n k l → s.pc n = .granted k
  granted : ∀ n k, s.pc n = .granted k → ∃ u l, s.pc u = .schedule n k l
  one : ∀ u u' n n' k k' l l', s.pc u = .schedule n k l → s.pc u' = .schedule n' k' l' → u = u'

section Control

variable [DecidableEq T] {s s' : State T} {t n : T} {k : Sem} {p : Pc T}

theorem Control.setPc (H : Control s) (hpc : s'.pc = Function.update s.pc t p)
    (hw : s'.waiting = s.waiting) (hold : (s.pc t).plain = true) (hnew : p.plain = true) :
    Control s' := by
  have hother : ∀ u, u ≠ t → s'.pc u = s.pc u := by
    intro u hu
    rw [hpc]
    exact Function.update_of_ne hu _ _
  have hself : s'.pc t = p := by rw [hpc, Function.update_self]
  refine ⟨?_, ?_, ?_, ?_, ?_⟩
  · intro u k
    rw [hw, ← H.waiting u k]
    by_cases hu : u = t
    · subst hu
      rw [hself]
      constructor
      · intro h; rw [h] at hnew; cases hnew
      · intro h; rw [h] at hold; cases hold
    · rw [hother u hu]
  · intro k
    rw [hw]
    exact H.nodup k
  · intro u n k l h
    have hu : u ≠ t := by
      rintro rfl
      rw [hself] at h
      rw [h] at hnew
      cases hnew
    rw [hother u hu] at h
    have hn := H.hand u n k l h
    have hnt : n ≠ t := by
      rintro rfl
      rw [hn] at hold
      cases hold
    rw [hother n hnt, hn]
  · intro n k h
    have hnt : n ≠ t := by
      rintro rfl
      rw [hself] at h
      rw [h] at hnew
      cases hnew
    rw [hother n hnt] at h
    obtain ⟨u, l, hu⟩ := H.granted n k h
    have hut : u ≠ t := by
      rintro rfl
      rw [hu] at hold
      cases hold
    exact ⟨u, l, by rw [hother u hut, hu]⟩
  · intro u u' n n' k k' l l' h h'
    have hu : u ≠ t := by
      rintro rfl
      rw [hself] at h
      rw [h] at hnew
      cases hnew
    have hu' : u' ≠ t := by
      rintro rfl
      rw [hself] at h'
      rw [h'] at hnew
      cases hnew
    rw [hother u hu] at h
    rw [hother u' hu'] at h'
    exact H.one u u' n n' k k' l l' h h'

/-- The thread joins the queue. -/
theorem Control.enqueue (H : Control s) (hold : s.pc t = .again k) :
    Control ((s.setWaiting k (s.waiting k ++ [t])).setPc t (.waiting k)) := by
  have hnot : ∀ k', t ∉ s.waiting k' := by
    intro k' h
    rw [← H.waiting, hold] at h
    cases h
  refine ⟨?_, ?_, ?_, ?_, ?_⟩
  · intro u k'
    by_cases hu : u = t
    · subst hu
      by_cases hk : k' = k
      · subst hk
        simp [State.setPc, State.setWaiting]
      · simp [State.setPc, State.setWaiting, hk, hnot k', Ne.symm hk]
    · by_cases hk : k' = k
      · subst hk
        simp [State.setPc, State.setWaiting, hu, H.waiting]
      · simp [State.setPc, State.setWaiting, hu, hk, H.waiting]
  · intro k'
    by_cases hk : k' = k
    · subst hk
      have hdis : List.Disjoint (s.waiting k') [t] := by
        intro u hu hu'
        rw [List.mem_singleton.mp hu'] at hu
        exact hnot k' hu
      simpa [State.setPc, State.setWaiting] using (H.nodup k').append (List.nodup_singleton t) hdis
    · simpa [State.setPc, State.setWaiting, hk] using H.nodup k'
  · intro u m k' l h
    by_cases hu : u = t
    · subst hu
      simp [State.setPc] at h
    · have h' : s.pc u = .schedule m k' l := by simpa [State.setPc, State.setWaiting, hu] using h
      have hm := H.hand u m k' l h'
      have hmt : m ≠ t := by
        rintro rfl
        rw [hold] at hm
        cases hm
      simpa [State.setPc, State.setWaiting, hmt] using hm
  · intro m k' h
    have hmt : m ≠ t := by
      rintro rfl
      simp [State.setPc] at h
    have h' : s.pc m = .granted k' := by simpa [State.setPc, State.setWaiting, hmt] using h
    obtain ⟨u, l, hu⟩ := H.granted m k' h'
    have hut : u ≠ t := by
      rintro rfl
      rw [hold] at hu
      cases hu
    exact ⟨u, l, by simpa [State.setPc, State.setWaiting, hut] using hu⟩
  · intro u u' m m' k' k'' l l' h h'
    have hu : u ≠ t := by
      rintro rfl
      simp [State.setPc] at h
    have hu' : u' ≠ t := by
      rintro rfl
      simp [State.setPc] at h'
    exact H.one u u' m m' k' k'' l l' (by simpa [State.setPc, State.setWaiting, hu] using h)
      (by simpa [State.setPc, State.setWaiting, hu'] using h')

/-- `up()` takes the first thread out of the queue; nobody else has one in hand. -/
theorem Control.take (H : Control s) {k' : Sem} {leaving : Bool} {rest : List T}
    (hold : s.pc t = .up k leaving) (hw : s.waiting k = n :: rest) (hno : ∀ m k', s.pc m ≠ .granted k') :
    Control ((((s.setWaiting k rest).grant k').setPc n (.granted k)).setPc t (.schedule n k leaving)) := by
  have hn : s.pc n = .waiting k := (H.waiting n k).mpr (by rw [hw]; exact List.mem_cons_self)
  have hnt : n ≠ t := by
    rintro rfl
    rw [hold] at hn
    cases hn
  have hnd := H.nodup k
  rw [hw] at hnd
  obtain ⟨hnr, hrest⟩ := List.nodup_cons.mp hnd
  -- the invariant allows one hand-over at a time, and there is none yet
  have hnosched : ∀ u m k' l, s.pc u ≠ .schedule m k' l :=
    fun u m k' l h => hno m k' (H.hand u m k' l h)
  have hpc : ∀ u, ((((s.setWaiting k rest).grant k').setPc n (.granted k)).setPc t
      (.schedule n k leaving)).pc u = if u = t then .schedule n k leaving else
        if u = n then .granted k else s.pc u := by
    intro u
    by_cases hu : u = t
    · simp [State.setPc, hu]
    · by_cases hun : u = n
      · simp [State.setPc, hun, hnt]
      · simp [State.setPc, State.grant, State.setWaiting, hu, hun]
  refine ⟨?_, ?_, ?_, ?_, ?_⟩
  -- who waits is in the queue: of `k` all but the first
  · intro u k''
    rw [hpc]
    by_cases hu : u = t
    · subst hu
      simp only [if_true, reduceCtorEq, false_iff]
      by_cases hk : k'' = k
      · subst hk
        intro h
        have : u ∈ s.waiting k'' := by
          rw [hw]
          exact List.mem_cons_of_mem n (by simpa [State.setPc, State.grant, State.setWaiting] using h)
        rw [← H.waiting, hold] at this
        cases this
      · intro h
        have : u ∈ s.waiting k'' := by simpa [State.setPc, State.grant, State.setWaiting, hk] using h
        rw [← H.waiting, hold] at this
        cases this
    · rw [if_neg hu]
      by_cases hun : u = n
      · subst hun
        simp only [if_true, reduceCtorEq, false_iff]
        by_cases hk : k'' = k
        · subst hk
          simpa [State.setPc, State.grant, State.setWaiting] using hnr
        · intro h
          have : u ∈ s.waiting k'' := by simpa [State.setPc, State.grant, State.setWaiting, hk] using h
          rw [← H.waiting, hn] at this
          exact hk (Pc.waiting.inj this).symm
      · rw [if_neg hun, H.waiting]
        by_cases hk : k'' = k
        · subst hk
          rw [hw]
          simp [State.setPc, State.grant, State.setWaiting, hun]
        · simp [State.setPc, State.grant, State.setWaiting, hk]
  · intro k''
    by_cases hk : k'' = k
    · subst hk
      simpa [State.setPc, State.grant, State.setWaiting] using hrest
    · simpa [State.setPc, State.grant, State.setWaiting, hk] using H.nodup k''
  · intro u m k'' l h
    rw [hpc] at h ⊢
    by_cases hu : u = t
    · rw [if_pos hu] at h
      injection h with h₁ h₂ h₃
      subst h₁ h₂
      rw [if_neg hnt, if_pos rfl]
    · rw [if_neg hu] at h
      by_cases hun : u = n
      · rw [if_pos hun] at h
        cases h
      · rw [if_neg hun] at h
        exact absurd h (hnosched u m k'' l)
  · intro m k'' h
    rw [hpc] at h
    by_cases hm : m = t
    · rw [if_pos hm] at h
      cases h
    · rw [if_neg hm] at h
      by_cases hmn : m = n
      · rw [if_pos hmn] at h
        injection h with h
        subst hmn h
        exact ⟨t, leaving, by rw [hpc, if_pos rfl]⟩
      · rw [if_neg hmn] at h
        exact absurd h (hno m k'')
  · have honly : ∀ u m k'' l, ((((s.setWaiting k rest).grant k').setPc n (.granted k)).setPc t
        (.schedule n k leaving)).pc u = .schedule m k'' l → u = t := by
      intro u m k'' l h
      by_contra hu
      rw [hpc, if_neg hu] at h
      by_cases hun : u = n
      · rw [if_pos hun] at h
        cases h
      · rw [if_neg hun] at h
        exact hnosched u m k'' l h
    intro u u' m m' k₁ k₂ l l' h h'
    rw [honly u m k₁ l h, honly u' m' k₂ l' h']

/-- The `schedule` of an `up()`. -/
theorem Control.schedule (H : Control s) {leaving : Bool} (hold : s.pc t = .schedule n k leaving) :
    Control ((s.setPc n (.past k)).setPc t (afterUp leaving)) := by
  have hn := H.hand t n k leaving hold
  have hnt : n ≠ t := by
    rintro rfl
    rw [hold] at hn
    cases hn
  have hafter : (afterUp leaving : Pc T).plain = true := by cases leaving <;> rfl
  have hpc : ∀ u, ((s.setPc n (.past k)).setPc t (afterUp leaving)).pc u =
      if u = t then afterUp leaving else if u = n then .past k else s.pc u := by
    intro u
    by_cases hu : u = t
    · simp [State.setPc, hu]
    · by_cases hun : u = n
      · simp [State.setPc, hun, hnt]
      · simp [State.setPc, hu, hun]
  -- nobody is in a hand any more
  have hnosched : ∀ u m k' l, ((s.setPc n (.past k)).setPc t (afterUp leaving)).pc u ≠
      .schedule m k' l := by
    intro u m k' l h
    rw [hpc] at h
    by_cases hu : u = t
    · rw [if_pos hu] at h
      rw [h] at hafter
      cases hafter
    · rw [if_neg hu] at h
      by_cases hun : u = n
      · rw [if_pos hun] at h
        cases h
      · rw [if_neg hun] at h
        exact hu (H.one u t m n k' k l leaving h hold)
  refine ⟨?_, H.nodup, fun u m k' l h => absurd h (hnosched u m k' l), ?_,
    fun u _ m _ k' _ l _ h _ => absurd h (hnosched u m k' l)⟩
  · intro u k'
    show _ ↔ u ∈ s.waiting k'
    rw [hpc, ← H.waiting]
    by_cases hu : u = t
    · subst hu
      rw [if_pos rfl, hold]
      refine iff_of_false ?_ (by simp)
      intro h
      rw [h] at hafter
      cases hafter
    · rw [if_neg hu]
      by_cases hun : u = n
      · subst hun
        rw [if_pos rfl, hn]
        simp
      · rw [if_neg hun]
  · intro m k' h
    rw [hpc] at h
    by_cases hm : m = t
    · rw [if_pos hm] at h
      rw [h] at hafter
      cases hafter
    · rw [if_neg hm] at h
      by_cases hmn : m = n
      · rw [if_pos hmn] at h
        cases h
      · rw [if_neg hmn] at h
        obtain ⟨u, l, hu⟩ := H.granted m k' h
        have hut := H.one u t m n k' k l leaving hu hold
        subst hut
        rw [hold] at hu
        injection hu with hu
        exact absurd hu.symm hmn

end Control

/-! ## The token and the counts

`Books` has the semaphore whose turn it is and the token as parameters, so each rule says how a
step changes these two: `grab` takes a free token, `release` puts it back, `handOver` passes it
on, `arrive` and `leave` are the steps that may change whose turn it is.

`limit` is the size of a group. The number of a thread's group is its turn divided by `limit`;
`count_mut` and `turn_mut` are the arithmetic that ties `count` to the arrivals while a group
gathers, and they are all that `arrive` needs to know of it. -/

/-- What the token leaves in the counter of semaphore `k'`. -/
def Token.value (k k' : Sem) : Token T → BitVec 64
  | free => if k' = k then 1 else 0
  | held _ => 0

/-- `mut` while a group gathers, `sem` while it leaves. -/
def Phase (limit : BitVec 32) (s : State T) : Sem → Prop
  | .mut => s.leaves = limit.toNat * (s.arrivals / limit.toNat)
  | .sem => 0 < s.count.toNat ∧ limit.toNat ∣ s.arrivals

def members [Fintype T] (s : State T) : Finset T :=
  Finset.univ.filter fun t => (s.pc t).member = true

structure Books [Fintype T] (limit : BitVec 32) (s : State T) (k : Sem) (w : Token T) : Prop where
  value : ∀ k', s.value k' = w.value k k'
  holder : ∀ t k', (s.pc t).holds = some k' ↔ w = .held t ∧ k' = k
  empty : w = .free → s.waiting k = []
  loaded : ∀ t k' c, s.pc t = .loaded k' c → c = s.count
  members : (members s).card = s.count.toNat
  count : s.count.toNat + s.leaves = s.arrivals
  bound : s.count.toNat ≤ limit.toNat
  passes : s.passes = s.leaves + w.pass s.pc
  phase : Phase limit s k
  turn : ∀ t, (s.pc t).member = true →
    limit.toNat * ((s.arrivals - 1) / limit.toNat) < s.turn t ∧ s.turn t ≤ s.arrivals

namespace Books

variable [Fintype T] [DecidableEq T] {limit : BitVec 32} {s s' : State T} {k k' : Sem} {w : Token T}
  {t n : T} {p : Pc T}

theorem members_congr (h : ∀ u, (s'.pc u).member = (s.pc u).member) :
    Barrier.members s' = Barrier.members s := by
  unfold Barrier.members
  simp only [h]

/-- A thread moves on, and has as much of the token as before. -/
theorem setPc (B : Books limit s k w) (hholds : p.holds = (s.pc t).holds)
    (hmember : p.member = (s.pc t).member) (hpassing : p.passing = (s.pc t).passing)
    (hloaded : ∀ k' c, p = .loaded k' c → c = s.count) : Books limit (s.setPc t p) k w := by
  have hsame : ∀ {α : Type} (f : Pc T → α), f p = f (s.pc t) →
      ∀ u, f ((s.setPc t p).pc u) = f (s.pc u) := by
    intro α f hf u
    by_cases hu : u = t
    · subst hu
      simpa [State.setPc] using hf
    · simp [State.setPc, hu]
  refine ⟨B.value, ?_, B.empty, ?_, ?_, B.count, B.bound, ?_, B.phase, ?_⟩
  · intro u k'
    rw [hsame Pc.holds hholds u]
    exact B.holder u k'
  · intro u k' c h
    by_cases hu : u = t
    · subst hu
      exact hloaded k' c (by simpa [State.setPc] using h)
    · exact B.loaded u k' c (by simpa [State.setPc, hu] using h)
  · rw [members_congr (hsame Pc.member hmember)]
    exact B.members
  · show s.passes = s.leaves + _
    rw [B.passes]
    cases w with
    | free => rfl
    | held u => rw [Token.pass_held, Token.pass_held, hsame Pc.passing hpassing u]
  · intro u hu
    rw [hsame Pc.member hmember u] at hu
    exact B.turn u hu

theorem setWaiting (B : Books limit s k w) {l : List T} (h : w = .free → k' ≠ k) :
    Books limit (s.setWaiting k' l) k w := by
  refine ⟨B.value, B.holder, ?_, B.loaded, B.members, B.count, B.bound, B.passes, B.phase, B.turn⟩
  intro hw
  show Function.update s.waiting k' l k = []
  rw [Function.update_of_ne (Ne.symm (h hw))]
  exact B.empty hw

/-- The token is free where a test succeeds. -/
theorem free_of_value (B : Books limit s k w) (h : 0 < s.value k') : w = .free ∧ k' = k := by
  rw [B.value k'] at h
  cases w with
  | held t => exact absurd h (by simp [Token.value])
  | free =>
    refine ⟨rfl, ?_⟩
    by_contra hne
    simp [Token.value, hne] at h

theorem holder_eq {i : Sem} (B : Books limit s k w) (h : (s.pc t).holds = some i) :
    w = .held t ∧ i = k :=
  (B.holder t i).mp h

/-- A thread takes the token that is free. -/
theorem grab (B : Books limit s k .free) (hholds : (s.pc t).holds = none) (hp : p.holds = some k)
    (hmember : p.member = (s.pc t).member) (hpassing : p.passing = decide (k = .sem))
    (hloaded : ∀ k' c, p ≠ .loaded k' c) :
    Books limit (((s.setValue k (s.value k - 1)).grant k).setPc t p) k (.held t) := by
  have hpc : ∀ u, u ≠ t → (((s.setValue k (s.value k - 1)).grant k).setPc t p).pc u = s.pc u :=
    fun u hu => Function.update_of_ne hu _ _
  have hself : (((s.setValue k (s.value k - 1)).grant k).setPc t p).pc t = p :=
    Function.update_self ..
  have hmem : ∀ u, ((((s.setValue k (s.value k - 1)).grant k).setPc t p).pc u).member =
      (s.pc u).member := by
    intro u
    by_cases hu : u = t
    · subst hu
      rw [hself, hmember]
    · rw [hpc u hu]
  have hnone : ∀ u, (s.pc u).holds = none := by
    intro u
    cases hu : (s.pc u).holds with
    | none => rfl
    | some k' => cases (B.holder_eq hu).1
  refine ⟨?_, ?_, (by simp), ?_, ?_, B.count, B.bound, ?_, B.phase, ?_⟩
  · intro k'
    by_cases hk : k' = k
    · subst hk
      have : s.value k' = 1 := by rw [B.value k']; simp [Token.value]
      simp [State.setPc, State.grant, State.setValue, this, Token.value]
    · have : s.value k' = 0 := by rw [B.value k']; simp [Token.value, hk]
      simp [State.setPc, State.grant, State.setValue, hk, this, Token.value]
  · intro u k'
    by_cases hu : u = t
    · subst hu
      rw [hself, hp]
      simp [eq_comm]
    · rw [hpc u hu, hnone u]
      simp [Ne.symm hu]
  · intro u k' c h
    by_cases hu : u = t
    · subst hu
      rw [hself] at h
      exact absurd h (hloaded k' c)
    · rw [hpc u hu] at h
      exact B.loaded u k' c h
  · rw [members_congr hmem]
    exact B.members
  · show s.passes + k.pass = s.leaves + _
    have hpass : s.passes = s.leaves + 0 := B.passes
    rw [Token.pass_held, hpass, hself, hpassing]
    cases k <;> rfl
  · intro u hu
    rw [hmem] at hu
    exact B.turn u hu

/-- `up()` finds nobody. -/
theorem release (B : Books limit s k w) {leaving : Bool} (hold : s.pc t = .up k' leaving)
    (hempty : s.waiting k' = []) :
    Books limit ((s.setValue k' (s.value k' + 1)).setPc t (afterUp leaving)) k .free := by
  obtain ⟨rfl, rfl⟩ := B.holder_eq (t := t) (i := k') (by rw [hold]; rfl)
  have hpc : ∀ u, u ≠ t → ((s.setValue k' (s.value k' + 1)).setPc t (afterUp leaving)).pc u = s.pc u :=
    fun u hu => Function.update_of_ne hu _ _
  have hself : ((s.setValue k' (s.value k' + 1)).setPc t (afterUp leaving)).pc t = afterUp leaving :=
    Function.update_self ..
  have hmem : ∀ u, (((s.setValue k' (s.value k' + 1)).setPc t (afterUp leaving)).pc u).member =
      (s.pc u).member := by
    intro u
    by_cases hu : u = t
    · subst hu
      rw [hself, hold]
      cases leaving <;> rfl
    · rw [hpc u hu]
  refine ⟨?_, ?_, fun _ => hempty, ?_, ?_, B.count, B.bound, ?_, B.phase, ?_⟩
  · intro k
    have : s.value k = 0 := B.value k
    by_cases hk : k = k'
    · subst hk
      simp [State.setPc, State.setValue, this, Token.value]
    · simp [State.setPc, State.setValue, hk, this, Token.value]
  · intro u k
    by_cases hu : u = t
    · subst hu
      rw [hself]
      cases leaving <;> simp [afterUp, Pc.holds]
    · rw [hpc u hu, B.holder]
      simp [Ne.symm hu]
  · intro u k c h
    by_cases hu : u = t
    · subst hu
      rw [hself] at h
      cases leaving <;> cases h
    · rw [hpc u hu] at h
      exact B.loaded u k c h
  · rw [members_congr hmem]
    exact B.members
  · show s.passes = s.leaves + 0
    rw [B.passes, Token.pass_held, hold]
    rfl
  · intro u hu
    rw [hmem] at hu
    exact B.turn u hu

/-- `up()` gives the token to the first thread of the queue. -/
theorem handOver (B : Books limit s k w) {leaving : Bool} {rest : List T}
    (hold : s.pc t = .up k' leaving) (hn : s.pc n = .waiting k') :
    Books limit ((((s.setWaiting k' rest).grant k').setPc n (.granted k')).setPc t
      (.schedule n k' leaving)) k (.held n) := by
  obtain ⟨rfl, rfl⟩ := B.holder_eq (t := t) (i := k') (by rw [hold]; rfl)
  have hnt : n ≠ t := by
    rintro rfl
    rw [hold] at hn
    cases hn
  have hpc : ∀ u, ((((s.setWaiting k' rest).grant k').setPc n (.granted k')).setPc t
      (.schedule n k' leaving)).pc u = if u = t then .schedule n k' leaving else
        if u = n then .granted k' else s.pc u := by
    intro u
    by_cases hu : u = t
    · simp [State.setPc, hu]
    · by_cases hun : u = n
      · simp [State.setPc, hun, hnt]
      · simp [State.setPc, State.grant, State.setWaiting, hu, hun]
  -- both are as much members of the group as before
  have hmem : ∀ u, (((((s.setWaiting k' rest).grant k').setPc n (.granted k')).setPc t
      (.schedule n k' leaving)).pc u).member = (s.pc u).member := by
    intro u
    rw [hpc]
    by_cases hu : u = t
    · subst hu
      rw [if_pos rfl, hold]
      rfl
    · rw [if_neg hu]
      by_cases hun : u = n
      · subst hun
        rw [if_pos rfl, hn]
        rfl
      · rw [if_neg hun]
  refine ⟨B.value, ?_, (by simp), ?_, ?_, B.count, B.bound, ?_, B.phase, ?_⟩
  · intro u k
    rw [hpc]
    by_cases hu : u = t
    · subst hu
      simp [Pc.holds, hnt]
    · rw [if_neg hu]
      by_cases hun : u = n
      · subst hun
        simp [Pc.holds, eq_comm]
      · rw [if_neg hun, B.holder]
        simp [Ne.symm hu, Ne.symm hun]
  · intro u k c h
    rw [hpc] at h
    by_cases hu : u = t
    · rw [if_pos hu] at h
      cases h
    · rw [if_neg hu] at h
      by_cases hun : u = n
      · rw [if_pos hun] at h
        cases h
      · rw [if_neg hun] at h
        exact B.loaded u k c h
  · rw [members_congr hmem]
    exact B.members
  · show s.passes + k'.pass = s.leaves + _
    rw [B.passes, Token.pass_held, Token.pass_held, hpc, if_neg hnt, if_pos rfl, hold]
    cases k' <;> rfl
  · intro u hu
    rw [hmem] at hu
    exact B.turn u hu

omit [DecidableEq T] [Fintype T] in
/-- Two numbers of arrivals in one group. -/
theorem same_group {n a b : Nat} (hlo : n * (a / n) ≤ b) (hhi : b < n * (a / n) + n) :
    b / n = a / n := by
  refine Nat.div_eq_of_lt_le ?_ ?_
  · rwa [Nat.mul_comm]
  · rwa [Nat.succ_mul, Nat.mul_comm]

/-- While a group gathers, `count` is the number of its arrivals. -/
theorem count_mut (B : Books limit s .mut w) (hlimit : 0 < limit.toNat) :
    s.count.toNat = s.arrivals % limit.toNat ∧ s.count.toNat < limit.toNat := by
  have hphase : s.leaves = limit.toNat * (s.arrivals / limit.toNat) := B.phase
  have hdiv := Nat.div_add_mod s.arrivals limit.toNat
  have hcount := B.count
  have hlt := Nat.mod_lt s.arrivals hlimit
  omega

/-- The threads on their way are those of the group that gathers. -/
theorem turn_mut (B : Books limit s .mut w) (hlimit : 0 < limit.toNat)
    (ht : (s.pc t).member = true) : limit.toNat * (s.arrivals / limit.toNat) < s.turn t := by
  have hpos : 0 < s.count.toNat := by
    rw [← B.members]
    exact Finset.card_pos.mpr ⟨t, by simp [Barrier.members, ht]⟩
  have hcount := (B.count_mut hlimit).1
  have hdm := Nat.div_add_mod s.arrivals limit.toNat
  have hlt := Nat.mod_lt s.arrivals hlimit
  have hdiv : (s.arrivals - 1) / limit.toNat = s.arrivals / limit.toNat :=
    same_group (by omega) (by omega)
  rw [← hdiv]
  exact (B.turn t ht).1

omit [Fintype T] in
theorem arrive_pc (c : BitVec 32) : (s.arrive limit t c).pc t =
    if c + 1 = limit then .up .sem false else .up .mut false :=
  Function.update_self ..

omit [Fintype T] in
theorem leave_pc (c : BitVec 32) : (s.leave t c).pc t =
    if c - 1 = 0 then .up .mut true else .up .sem true :=
  Function.update_self ..

/-- An arrival. -/
theorem arrive (B : Books limit s k w) (hlimit : 0 < limit.toNat) {c : BitVec 32}
    (hold : s.pc t = .loaded .mut c) : ∃ k', Books limit (s.arrive limit t c) k' (.held t) := by
  obtain ⟨rfl, rfl⟩ := B.holder_eq (t := t) (i := .mut) (by rw [hold]; rfl)
  obtain rfl := B.loaded t .mut c hold
  obtain ⟨hmod, hlt⟩ := B.count_mut hlimit
  have hphase : s.leaves = limit.toNat * (s.arrivals / limit.toNat) := B.phase
  have hdm := Nat.div_add_mod s.arrivals limit.toNat
  have hone : (1 : BitVec 32).toNat = 1 := rfl
  have hlt32 := limit.isLt
  have hsucc : (s.count + 1).toNat = s.count.toNat + 1 := by
    rw [BitVec.toNat_add, hone, Nat.mod_eq_of_lt (by omega)]
  have hcount := B.count
  have hpc : ∀ u, u ≠ t → (s.arrive limit t s.count).pc u = s.pc u :=
    fun u hu => Function.update_of_ne hu _ _
  -- the arrival makes `t` a member of the group
  have hmem : Barrier.members (s.arrive limit t s.count) = insert t (Barrier.members s) := by
    ext u
    simp only [Barrier.members, Finset.mem_filter, Finset.mem_univ, true_and, Finset.mem_insert]
    by_cases hu : u = t
    · subst hu
      rw [arrive_pc]
      refine iff_of_true ?_ (Or.inl rfl)
      split <;> rfl
    · rw [hpc u hu]
      simp [hu]
  have hnot : t ∉ Barrier.members s := by
    intro h
    have := (Finset.mem_filter.mp h).2
    rw [hold] at this
    cases this
  have hcard : (Barrier.members (s.arrive limit t s.count)).card = (s.count + 1).toNat := by
    rw [hmem, Finset.card_insert_of_notMem hnot, B.members, hsucc]
  have hloaded : ∀ u k' c, (s.arrive limit t s.count).pc u = .loaded k' c → c = s.count + 1 := by
    intro u k' c h
    by_cases hu : u = t
    · subst hu
      rw [arrive_pc] at h
      split at h <;> cases h
    · rw [hpc u hu] at h
      have := (B.holder_eq (t := u) (i := k') (by rw [h]; rfl)).1
      exact absurd (Token.held.inj this).symm hu
  have hturn : ∀ u, ((s.arrive limit t s.count).pc u).member = true →
      limit.toNat * ((s.arrivals + 1 - 1) / limit.toNat) <
        (s.arrive limit t s.count).turn u ∧ (s.arrive limit t s.count).turn u ≤ s.arrivals + 1 := by
    intro u hu
    rw [Nat.add_sub_cancel]
    by_cases hut : u = t
    · subst hut
      show _ < Function.update s.turn u (s.arrivals + 1) u ∧ Function.update s.turn u _ u ≤ _
      rw [Function.update_self]
      exact ⟨by omega, Nat.le_refl _⟩
    · rw [hpc u hut] at hu
      show _ < Function.update s.turn t (s.arrivals + 1) u ∧ Function.update s.turn t _ u ≤ _
      rw [Function.update_of_ne hut]
      exact ⟨B.turn_mut hlimit hu, Nat.le_succ_of_le (B.turn u hu).2⟩
  have hpasses : s.passes = s.leaves + (Token.held t).pass (s.arrive limit t s.count).pc := by
    have hno : ((s.arrive limit t s.count).pc t).passing = false := by
      rw [arrive_pc]
      split <;> rfl
    rw [B.passes, Token.pass_held, Token.pass_held, hold, hno]
    rfl
  have hholder : ∀ k', ((s.arrive limit t s.count).pc t).holds = some k' → ∀ u k'',
      ((s.arrive limit t s.count).pc u).holds = some k'' ↔ Token.held t = Token.held u ∧ k'' = k' := by
    intro k' hk' u k''
    by_cases hu : u = t
    · subst hu
      rw [hk']
      simp [eq_comm]
    · rw [hpc u hu, B.holder]
      simp [Ne.symm hu]
  by_cases hfull : s.count + 1 = limit
  · -- the group is full
    have hfull' : s.count.toNat + 1 = limit.toNat := by rw [← hsucc, hfull]
    have hat : (s.arrive limit t s.count).pc t = .up .sem false := by
      rw [arrive_pc, if_pos hfull]
    refine ⟨.sem, B.value, hholder .sem (by rw [hat]; rfl), (by simp), hloaded, hcard, ?_, ?_, hpasses,
      ⟨?_, ?_⟩, hturn⟩
    · show (s.count + 1).toNat + s.leaves = s.arrivals + 1
      omega
    · show (s.count + 1).toNat ≤ _
      omega
    · show 0 < (s.count + 1).toNat
      omega
    · show limit.toNat ∣ s.arrivals + 1
      refine ⟨s.arrivals / limit.toNat + 1, ?_⟩
      rw [Nat.mul_add, Nat.mul_one]
      omega
  -- there is room: `mut` goes on to the next that arrives
  · have hfull' : s.count.toNat + 1 ≠ limit.toNat := by
      rw [← hsucc]
      exact fun h => hfull (BitVec.eq_of_toNat_eq h)
    have hat : (s.arrive limit t s.count).pc t = .up .mut false := by
      rw [arrive_pc, if_neg hfull]
    refine ⟨.mut, B.value, hholder .mut (by rw [hat]; rfl), (by simp), hloaded, hcard, ?_, ?_, hpasses,
      ?_, hturn⟩
    · show (s.count + 1).toNat + s.leaves = s.arrivals + 1
      omega
    · show (s.count + 1).toNat ≤ _
      omega
    · show s.leaves = limit.toNat * ((s.arrivals + 1) / limit.toNat)
      rw [same_group (a := s.arrivals) (by omega) (by omega), hphase]

/-- A leave. -/
theorem leave (B : Books limit s k w) {c : BitVec 32} (hold : s.pc t = .loaded .sem c) :
    ∃ k', Books limit (s.leave t c) k' (.held t) := by
  obtain ⟨rfl, rfl⟩ := B.holder_eq (t := t) (i := .sem) (by rw [hold]; rfl)
  obtain rfl := B.loaded t .sem c hold
  obtain ⟨hpos, hdvd⟩ : 0 < s.count.toNat ∧ limit.toNat ∣ s.arrivals := B.phase
  have hone : (1 : BitVec 32).toNat = 1 := rfl
  have hsub : (s.count - 1).toNat + 1 = s.count.toNat := by
    rw [BitVec.toNat_sub_of_le (BitVec.le_def.mpr (by rw [hone]; exact hpos)), hone]
    omega
  have hcount := B.count
  have hbound := B.bound
  have hpc : ∀ u, u ≠ t → (s.leave t s.count).pc u = s.pc u :=
    fun u hu => Function.update_of_ne hu _ _
  have hmem : Barrier.members (s.leave t s.count) = (Barrier.members s).erase t := by
    ext u
    simp only [Barrier.members, Finset.mem_filter, Finset.mem_univ, true_and, Finset.mem_erase]
    by_cases hu : u = t
    · subst hu
      rw [leave_pc]
      refine iff_of_false ?_ (fun h => h.1 rfl)
      split <;> simp [Pc.member]
    · rw [hpc u hu]
      simp [hu]
  have hin : t ∈ Barrier.members s :=
    Finset.mem_filter.mpr ⟨Finset.mem_univ t, by rw [hold]; rfl⟩
  have hcard : (Barrier.members (s.leave t s.count)).card = (s.count - 1).toNat := by
    rw [hmem, Finset.card_erase_of_mem hin, B.members]
    omega
  have hloaded : ∀ u k' c, (s.leave t s.count).pc u = .loaded k' c → c = s.count - 1 := by
    intro u k' c h
    by_cases hu : u = t
    · subst hu
      rw [leave_pc] at h
      split at h <;> cases h
    · rw [hpc u hu] at h
      have := (B.holder_eq (t := u) (i := k') (by rw [h]; rfl)).1
      exact absurd (Token.held.inj this).symm hu
  have hturn : ∀ u, ((s.leave t s.count).pc u).member = true →
      limit.toNat * ((s.arrivals - 1) / limit.toNat) < s.turn u ∧ s.turn u ≤ s.arrivals := by
    intro u hu
    have hm : u ∈ Barrier.members (s.leave t s.count) := by simp [Barrier.members, hu]
    rw [hmem] at hm
    exact B.turn u (by simpa [Barrier.members] using Finset.mem_of_mem_erase hm)
  have hpasses : s.passes = s.leaves + 1 + (Token.held t).pass (s.leave t s.count).pc := by
    have hno : ((s.leave t s.count).pc t).passing = false := by
      rw [leave_pc]
      split <;> rfl
    rw [B.passes, Token.pass_held, Token.pass_held, hold, hno]
    rfl
  have hholder : ∀ k', ((s.leave t s.count).pc t).holds = some k' → ∀ u k'',
      ((s.leave t s.count).pc u).holds = some k'' ↔ Token.held t = Token.held u ∧ k'' = k' := by
    intro k' hk' u k''
    by_cases hu : u = t
    · subst hu
      rw [hk']
      simp [eq_comm]
    · rw [hpc u hu, B.holder]
      simp [Ne.symm hu]
  by_cases hlast : s.count - 1 = 0
  · -- the last one of the group
    have hlast' : (s.count - 1).toNat = 0 := by rw [hlast]; rfl
    have hat : (s.leave t s.count).pc t = .up .mut true := by
      rw [leave_pc, if_pos hlast]
    refine ⟨.mut, B.value, hholder .mut (by rw [hat]; rfl), (by simp), hloaded, hcard, ?_, ?_, hpasses,
      ?_, hturn⟩
    · show (s.count - 1).toNat + (s.leaves + 1) = s.arrivals
      omega
    · show (s.count - 1).toNat ≤ _
      omega
    · show s.leaves + 1 = limit.toNat * (s.arrivals / limit.toNat)
      rw [Nat.mul_div_cancel' hdvd]
      omega
  -- there are more to let through: `sem` goes on to the next of the group
  · have hlast' : (s.count - 1).toNat ≠ 0 := fun h => hlast (BitVec.eq_of_toNat_eq h)
    have hat : (s.leave t s.count).pc t = .up .sem true := by
      rw [leave_pc, if_neg hlast]
    refine ⟨.sem, B.value, hholder .sem (by rw [hat]; rfl), (by simp), hloaded, hcard, ?_, ?_, hpasses,
      ⟨?_, hdvd⟩, hturn⟩
    · show (s.count - 1).toNat + (s.leaves + 1) = s.arrivals
      omega
    · show (s.count - 1).toNat ≤ _
      omega
    · show 0 < (s.count - 1).toNat
      omega

end Books

/-! ## Every step

A step of `Barrier.step` is one of the rules above, so the proof follows the places at which a
thread can be. The queues and the numbers do not depend on one another and are carried side by
side. -/

structure Inv [Fintype T] (limit : BitVec 32) (s : State T) : Prop where
  control : Control s
  books : ∃ k w, Books limit s k w

variable [Fintype T] [DecidableEq T] {limit : BitVec 32} {s s' : State T} {t : T}

theorem Inv.step (H : Inv limit s) (hlimit : 0 < limit.toNat) (hs : step limit s t = some s') :
    Inv limit s' := by
  obtain ⟨K, k, w, B⟩ := H
  unfold Barrier.step at hs
  cases hp : s.pc t with
  | outside =>
    rw [hp] at hs
    injection hs with hs
    subst hs
    exact ⟨K.setPc rfl rfl (by rw [hp]; rfl) rfl, k, w, B.setPc (by rw [hp]; rfl) (by rw [hp]; rfl)
      (by rw [hp]; rfl) (by simp)⟩
  | down k' =>
    rw [hp] at hs
    injection hs with hs
    subst hs
    unfold State.down State.test
    split
    · rename_i hv
      -- a count above 0 means that nobody has the token
      obtain ⟨rfl, rfl⟩ := B.free_of_value hv
      exact ⟨K.setPc rfl rfl (by rw [hp]; rfl) rfl, k', _, B.grab (by rw [hp]; rfl) rfl
        (by rw [hp]; rfl) rfl (by simp)⟩
    · exact ⟨K.setPc rfl rfl (by rw [hp]; rfl) rfl, k, w, B.setPc (by rw [hp]; rfl) (by rw [hp]; rfl)
        (by rw [hp]; rfl) (by simp)⟩
  | again k' =>
    rw [hp] at hs
    injection hs with hs
    subst hs
    unfold State.downAgain State.test
    split
    · rename_i hv
      obtain ⟨rfl, rfl⟩ := B.free_of_value hv
      exact ⟨K.setPc rfl rfl (by rw [hp]; rfl) rfl, k', _, B.grab (by rw [hp]; rfl) rfl
        (by rw [hp]; rfl) rfl (by simp)⟩
    · rename_i hv
      have hne : w = .free → k' ≠ k := by
        rintro rfl rfl
        rw [B.value k'] at hv
        simp [Token.value] at hv
      exact ⟨K.enqueue hp, k, w, (B.setWaiting hne).setPc (t := t) (p := .waiting k')
        (by show _ = (s.pc t).holds; rw [hp]; rfl) (by show _ = (s.pc t).member; rw [hp]; rfl)
        (by show _ = (s.pc t).passing; rw [hp]; rfl) (by simp)⟩
  | waiting k' =>
    rw [hp] at hs
    cases hs
  | granted k' =>
    rw [hp] at hs
    cases hs
  | rescheduled k' =>
    rw [hp] at hs
    injection hs with hs
    subst hs
    exact ⟨K.setPc rfl rfl (by rw [hp]; rfl) rfl, k, w, B.setPc (by rw [hp]; rfl) (by rw [hp]; rfl)
      (by rw [hp]; rfl) (by simp)⟩
  | past k' =>
    rw [hp] at hs
    injection hs with hs
    subst hs
    refine ⟨K.setPc rfl rfl (by rw [hp]; rfl) rfl, k, w, B.setPc (by rw [hp]; rfl) (by rw [hp]; rfl)
      (by rw [hp]; rfl) ?_⟩
    intro k'' c h
    injection h with _ h
    exact h.symm
  | loaded k' c =>
    rw [hp] at hs
    -- `++count` on the way in, `--count` on the way out
    rcases k' with _ | _
    · injection hs with hs
      subst hs
      obtain ⟨k', B'⟩ := B.arrive hlimit hp
      exact ⟨K.setPc rfl rfl (by rw [hp]; rfl) (by split <;> rfl), k', _, B'⟩
    · injection hs with hs
      subst hs
      obtain ⟨k', B'⟩ := B.leave hp
      exact ⟨K.setPc rfl rfl (by rw [hp]; rfl) (by split <;> rfl), k', _, B'⟩
  | up k' leaving =>
    rw [hp] at hs
    injection hs with hs
    subst hs
    unfold State.up
    cases hw : s.waiting k' with
    | nil =>
      exact ⟨K.setPc rfl rfl (by rw [hp]; rfl) (by cases leaving <;> rfl), k, _, B.release hp hw⟩
    | cons n rest =>
      have hn : s.pc n = .waiting k' := (K.waiting n k').mpr (by rw [hw]; exact List.mem_cons_self)
      refine ⟨K.take hp hw ?_, k, _, B.handOver hp hn⟩
      -- the token is with `t`
      intro m k'' hm
      have h₁ := (B.holder_eq (t := t) (i := k') (by rw [hp]; rfl)).1
      have h₂ := (B.holder_eq (t := m) (i := k'') (by rw [hm]; rfl)).1
      rw [h₁] at h₂
      injection h₂ with h₂
      rw [← h₂, hp] at hm
      cases hm
  | schedule n k' leaving =>
    rw [hp] at hs
    injection hs with hs
    subst hs
    have hn := K.hand t n k' leaving hp
    have hnt : t ≠ n := by
      rintro rfl
      rw [hp] at hn
      cases hn
    have B₁ : Books limit (s.setPc n (.past k')) k w := B.setPc (by rw [hn]; rfl) (by rw [hn]; rfl)
      (by rw [hn]; rfl) (by simp)
    have hp₁ : (s.setPc n (.past k')).pc t = .schedule n k' leaving := by
      simpa [State.setPc, hnt] using hp
    refine ⟨K.schedule hp, k, w, B₁.setPc ?_ ?_ ?_ ?_⟩
    · rw [hp₁]
      cases leaving <;> rfl
    · rw [hp₁]
      cases leaving <;> rfl
    · rw [hp₁]
      cases leaving <;> rfl
    · intro k'' c h
      cases leaving <;> cases h

theorem Inv.init (limit : BitVec 32) : Inv limit (State.init : State T) := by
  refine ⟨⟨?_, ?_, ?_, ?_, ?_⟩, .mut, .free, ⟨?_, ?_, ?_, ?_, ?_, rfl, ?_, rfl, ?_, ?_⟩⟩
  · intro t k
    simp [State.init]
  · intro k
    exact List.nodup_nil
  · intro u n k l h
    cases h
  · intro n k h
    cases h
  · intro u u' n n' k k' l l' h
    cases h
  · intro k
    cases k <;> rfl
  · intro t k
    simp [State.init, Pc.holds]
  · intro _
    rfl
  · intro t k c h
    cases h
  · simp [members, State.init, Pc.member]
  · exact Nat.zero_le _
  · show (0 : Nat) = limit.toNat * (0 / limit.toNat)
    rw [Nat.zero_div, Nat.mul_zero]
  · intro t h
    cases h

end OsKernel.Barrier
