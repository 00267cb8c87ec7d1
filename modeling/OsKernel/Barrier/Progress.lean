import Mathlib.Algebra.BigOperators.Group.Finset.Basic
import Mathlib.Algebra.Order.BigOperators.Group.Finset
import Mathlib.Data.Prod.Lex
import OsKernel.Barrier.Inv
import OsKernel.Lib.Fair

/-!
# Nobody waits at the barrier for ever

The thread that has the token is never blocked, and when the token is free in `sem` some
member of the group is on its way to it. Each step of a thread inside brings the group nearer
to its end, and the queue of `mut` is first come, first served.

The runs are fair ones: a thread that can make a step makes one at some time. The rule that
turns a measure into progress is in `Lib/Fair.lean`, and is used three times. At `sem` the
measure is what is left to do for the members of the group, which every step of one of them
lowers and nobody else's raises. At `mut` it is how many threads are ahead in the queue, and
then what the one with the token has left to do. For the second test of `down()` it is one
step.

What is proved for a state is that every fair run from it gets a blocked thread past its
`down()`, and also that there is such a run (`GetsPast`), so that it is not true of all fair
runs because there are none. At `sem` that holds if the group is complete; a thread of an
incomplete group waits for arrivals that may never come, and that is what a barrier is for.
-/

set_option autoImplicit false
set_option linter.unusedSectionVars false

namespace OsKernel.Barrier

open Lib

variable {T : Type}

namespace Pc

/-- The thread is neither blocked nor outside. -/
def moves : Pc T → Bool
  | outside | waiting _ | granted _ => false
  | _ => true

/-- How much of a call is left, once `mut` is granted. -/
def left : Pc T → Nat
  | granted .mut | rescheduled .mut => 14
  | past .mut => 13
  | loaded .mut _ => 12
  | up _ false => 11
  | schedule _ _ false => 10
  | down .sem => 9
  | again .sem => 8
  | waiting .sem => 7
  | granted .sem | rescheduled .sem => 6
  | past .sem => 5
  | loaded .sem _ => 4
  | up _ true => 3
  | schedule _ _ true => 2
  | outside | down .mut | again .mut | waiting .mut => 0

/-- Arrived, and not let through `sem` yet. -/
def before : Pc T → Bool
  | up _ leaving | schedule _ _ leaving => !leaving
  | down k | again k | waiting k | granted k | rescheduled k => k = .sem
  | _ => false

end Pc

/-- The thread inside can move. -/
def Active (s : State T) (t : T) : Prop := 0 < (s.pc t).left ∧ (s.pc t).moves = true

/-- What is left to do for all threads inside. -/
def work [Fintype T] (s : State T) : Nat := ∑ t, (s.pc t).left

variable [Fintype T] [DecidableEq T] {limit : BitVec 32} {s s' : State T} {t x : T} {k : Sem}
  {w : Token T}

/-- The holder of the token can move, or the thread can that has it in hand. -/
theorem Books.active_held (B : Books limit s k (.held x)) (K : Control s) : ∃ u, Active s u := by
  have hx : (s.pc x).holds = some k := (B.holder x k).mpr ⟨rfl, rfl⟩
  cases hp : s.pc x with
  | granted k' =>
    obtain ⟨u, l, hu⟩ := K.granted x k' hp
    refine ⟨u, ?_, ?_⟩
    · rw [hu]
      cases l <;> exact Nat.succ_pos _
    · rw [hu]
      rfl
  | rescheduled k' => exact ⟨x, by rw [hp]; cases k' <;> exact Nat.succ_pos _, by rw [hp]; rfl⟩
  | past k' => exact ⟨x, by rw [hp]; cases k' <;> exact Nat.succ_pos _, by rw [hp]; rfl⟩
  | loaded k' c => exact ⟨x, by rw [hp]; cases k' <;> exact Nat.succ_pos _, by rw [hp]; rfl⟩
  | up k' l => exact ⟨x, by rw [hp]; cases l <;> exact Nat.succ_pos _, by rw [hp]; rfl⟩
  | outside => rw [hp] at hx; cases hx
  | down k' => rw [hp] at hx; cases hx
  | again k' => rw [hp] at hx; cases hx
  | waiting k' => rw [hp] at hx; cases hx
  | schedule n k' l => rw [hp] at hx; cases hx

/-- While the token is free in `sem`, every member can move. -/
theorem Books.active_free (B : Books limit s .sem .free) (K : Control s)
    (ht : (s.pc t).member = true) : Active s t := by
  have hno : ∀ u k', (s.pc u).holds ≠ some k' := by
    intro u k' h
    cases (B.holder_eq h).1
  cases hp : s.pc t with
  | down k' =>
    rw [hp] at ht
    cases k' with
    | sem => exact ⟨by rw [hp]; exact Nat.succ_pos _, by rw [hp]; rfl⟩
    | _ => cases ht
  | again k' =>
    rw [hp] at ht
    cases k' with
    | sem => exact ⟨by rw [hp]; exact Nat.succ_pos _, by rw [hp]; rfl⟩
    | _ => cases ht
  | waiting k' =>
    rw [hp] at ht
    cases k' with
    | sem =>
      have := (K.waiting t .sem).mp hp
      rw [B.empty rfl] at this
      cases this
    | _ => cases ht
  | schedule n k' l => exact absurd (by rw [K.hand t n k' l hp]; rfl) (hno n k')
  | granted k' => exact absurd (by rw [hp]; rfl) (hno t k')
  | rescheduled k' => exact absurd (by rw [hp]; rfl) (hno t k')
  | past k' => exact absurd (by rw [hp]; rfl) (hno t k')
  | loaded k' c => exact absurd (by rw [hp]; rfl) (hno t k')
  | up k' l => exact absurd (by rw [hp]; rfl) (hno t k')
  | outside => rw [hp] at ht; cases ht

/-- Somebody can move while the group is leaving. -/
theorem Books.active_sem (B : Books limit s .sem w) (K : Control s) : ∃ u, Active s u := by
  cases w with
  | held x => exact B.active_held K
  | free =>
    have hpos : 0 < (Barrier.members s).card := by
      rw [B.members]
      exact B.phase.1
    obtain ⟨u, hu⟩ := Finset.card_pos.mp hpos
    exact ⟨u, B.active_free K (Finset.mem_filter.mp hu).2⟩

/-! ## What a step does to the others

A measure over all threads goes down only if the step of one thread does not raise what another
has left to do. `step_pc` says whom a step moves besides the thread that makes it: at most one
other, the head of a queue or the thread in its hand. Neither has more to do afterwards, except
where `mut` is handed over: a thread outside has nothing left of a call, and the one that gets
`mut` has a whole call before it. So the lemmas about `work` leave that case out, and the measure
at `mut` has a first component for it. -/

/-- Whom a step of `t` moves, besides itself. -/
theorem step_pc (hs : step limit s t = some s') (u : T) (hu : u ≠ t) :
    s'.pc u = s.pc u ∨
    (∃ k l rest, s.pc t = .up k l ∧ s.waiting k = u :: rest ∧ s'.pc u = .granted k) ∨
    ∃ k l, s.pc t = .schedule u k l ∧ s'.pc u = .past k := by
  have hone : ∀ (s₁ : State T) (p : Pc T), s₁.pc = s.pc → (s₁.setPc t p).pc u = s.pc u := by
    intro s₁ p h
    show Function.update s₁.pc t p u = _
    rw [Function.update_of_ne hu, h]
  unfold step at hs
  cases hp : s.pc t with
  | outside =>
    rw [hp] at hs
    injection hs with hs
    subst hs
    exact Or.inl (hone s _ rfl)
  | down k =>
    rw [hp] at hs
    injection hs with hs
    subst hs
    unfold State.down State.test
    split
    · exact Or.inl (hone _ _ rfl)
    · exact Or.inl (hone _ _ rfl)
  | again k =>
    rw [hp] at hs
    injection hs with hs
    subst hs
    unfold State.downAgain State.test
    split
    · exact Or.inl (hone _ _ rfl)
    · exact Or.inl (hone _ _ rfl)
  | waiting k => rw [hp] at hs; cases hs
  | granted k => rw [hp] at hs; cases hs
  | rescheduled k =>
    rw [hp] at hs
    injection hs with hs
    subst hs
    exact Or.inl (hone s _ rfl)
  | past k =>
    rw [hp] at hs
    injection hs with hs
    subst hs
    exact Or.inl (hone s _ rfl)
  | loaded k c =>
    rw [hp] at hs
    rcases k with _ | _
    · injection hs with hs
      subst hs
      exact Or.inl (hone s _ rfl)
    · injection hs with hs
      subst hs
      exact Or.inl (hone s _ rfl)
  | up k l =>
    rw [hp] at hs
    injection hs with hs
    subst hs
    unfold State.up
    cases hw : s.waiting k with
    | nil => exact Or.inl (hone _ _ rfl)
    | cons n rest =>
      by_cases hun : u = n
      · subst hun
        refine Or.inr (Or.inl ⟨k, l, rest, rfl, hw, ?_⟩)
        show Function.update (Function.update s.pc u _) t _ u = _
        rw [Function.update_of_ne hu, Function.update_self]
      · refine Or.inl ?_
        show Function.update (Function.update s.pc n _) t _ u = _
        rw [Function.update_of_ne hu, Function.update_of_ne hun]
  | schedule n k l =>
    rw [hp] at hs
    injection hs with hs
    subst hs
    by_cases hun : u = n
    · subst hun
      refine Or.inr (Or.inr ⟨k, l, rfl, ?_⟩)
      show Function.update (Function.update s.pc u _) t _ u = _
      rw [Function.update_of_ne hu, Function.update_self]
    · refine Or.inl ?_
      show Function.update (Function.update s.pc n _) t _ u = _
      rw [Function.update_of_ne hu, Function.update_of_ne hun]

/-- A step of a thread inside leaves less of its call. -/
theorem step_left (hs : step limit s t = some s') (ht : 0 < (s.pc t).left) :
    (s'.pc t).left < (s.pc t).left := by
  have hself : ∀ (s₁ : State T) (p : Pc T), (s₁.setPc t p).pc t = p :=
    fun s₁ p => Function.update_self ..
  unfold step at hs
  cases hp : s.pc t with
  | outside => rw [hp] at ht; cases ht
  -- only what comes behind `mut` is counted, so the semaphore is `sem`
  | down k =>
    rw [hp] at hs ht
    injection hs with hs
    subst hs
    rcases k with _ | _
    · cases ht
    · unfold State.down State.test
      split
      · rw [hself]
        exact Nat.lt_of_sub_eq_succ rfl
      · rw [hself]
        exact Nat.lt_of_sub_eq_succ rfl
  | again k =>
    rw [hp] at hs ht
    injection hs with hs
    subst hs
    rcases k with _ | _
    · cases ht
    · unfold State.downAgain State.test
      split
      · rw [hself]
        exact Nat.lt_of_sub_eq_succ rfl
      · rw [hself]
        exact Nat.lt_of_sub_eq_succ rfl
  | waiting k => rw [hp] at hs; cases hs
  | granted k => rw [hp] at hs; cases hs
  | rescheduled k =>
    rw [hp] at hs
    injection hs with hs
    subst hs
    rw [hself]
    cases k <;> exact Nat.lt_of_sub_eq_succ rfl
  | past k =>
    rw [hp] at hs
    injection hs with hs
    subst hs
    rw [hself]
    cases k <;> exact Nat.lt_of_sub_eq_succ rfl
  | loaded k c =>
    rw [hp] at hs
    rcases k with _ | _
    · injection hs with hs
      subst hs
      rw [Books.arrive_pc]
      split <;> exact Nat.lt_of_sub_eq_succ rfl
    · injection hs with hs
      subst hs
      rw [Books.leave_pc]
      split <;> exact Nat.lt_of_sub_eq_succ rfl
  | up k l =>
    rw [hp] at hs
    injection hs with hs
    subst hs
    unfold State.up
    cases hw : s.waiting k with
    | nil =>
      dsimp only
      rw [hself]
      cases l <;> exact Nat.lt_of_sub_eq_succ rfl
    | cons n rest =>
      dsimp only
      rw [hself]
      cases l <;> exact Nat.lt_of_sub_eq_succ rfl
  | schedule n k l =>
    rw [hp] at hs
    injection hs with hs
    subst hs
    rw [hself]
    cases l <;> exact Nat.lt_of_sub_eq_succ rfl

/-- Unless `mut` is handed over, the others do not have more to do either. -/
theorem step_left_others (K : Control s) (hs : step limit s t = some s')
    (hno : ∀ l n rest, s.pc t = .up .mut l → s.waiting .mut ≠ n :: rest) {u : T} (hu : u ≠ t) :
    (s'.pc u).left ≤ (s.pc u).left := by
  rcases step_pc hs u hu with h | ⟨k, l, rest, hp, hw, h⟩ | ⟨k, l, hp, h⟩
  · rw [h]
  · have hwait : s.pc u = .waiting k := (K.waiting u k).mpr (by rw [hw]; exact List.mem_cons_self)
    rw [h, hwait]
    rcases k with _ | _
    · exact absurd hw (hno l u rest hp)
    · exact Nat.le_succ 6
  · rw [h, K.hand t u k l hp]
    cases k <;> exact Nat.le_succ _

theorem work_lt (K : Control s) (hs : step limit s t = some s') (ht : 0 < (s.pc t).left)
    (hno : ∀ l n rest, s.pc t = .up .mut l → s.waiting .mut ≠ n :: rest) : work s' < work s := by
  refine Finset.sum_lt_sum ?_ ⟨t, Finset.mem_univ t, step_left hs ht⟩
  intro u _
  by_cases hu : u = t
  · subst hu
    exact (step_left hs ht).le
  · exact step_left_others K hs hno hu

/-- A step of a thread that is not inside, while `mut` is not free. -/
theorem step_outside (hs : step limit s t = some s') (ht : (s.pc t).left = 0)
    (hv : ¬ 0 < s.value .mut) :
    (∀ u, u ≠ t → s'.pc u = s.pc u) ∧ (s'.pc t).left = 0 ∧ s'.arrivals = s.arrivals ∧
      (s'.waiting .mut = s.waiting .mut ∨ s'.waiting .mut = s.waiting .mut ++ [t]) := by
  have hother : ∀ (s₁ : State T) (p : Pc T), s₁.pc = s.pc →
      ∀ u, u ≠ t → (s₁.setPc t p).pc u = s.pc u := by
    intro s₁ p h u hu
    show Function.update s₁.pc t p u = _
    rw [Function.update_of_ne hu, h]
  have hself : ∀ (s₁ : State T) (p : Pc T), (s₁.setPc t p).pc t = p :=
    fun s₁ p => Function.update_self ..
  unfold step at hs
  cases hp : s.pc t with
  | outside =>
    rw [hp] at hs
    injection hs with hs
    subst hs
    exact ⟨hother s _ rfl, by rw [hself]; rfl, rfl, Or.inl rfl⟩
  | down k =>
    rw [hp] at hs ht
    injection hs with hs
    subst hs
    rcases k with _ | _
    · unfold State.down State.test
      rw [if_neg hv]
      exact ⟨hother s _ rfl, by rw [hself]; rfl, rfl, Or.inl rfl⟩
    · cases ht
  | again k =>
    rw [hp] at hs ht
    injection hs with hs
    subst hs
    rcases k with _ | _
    · unfold State.downAgain State.test
      rw [if_neg hv]
      exact ⟨hother _ _ rfl, by rw [hself]; rfl, rfl, Or.inr (by simp)⟩
    · cases ht
  | waiting k => rw [hp] at hs; cases hs
  | granted k => rw [hp] at hs; cases hs
  | rescheduled k => rw [hp] at ht; cases k <;> cases ht
  | past k => rw [hp] at ht; cases k <;> cases ht
  | loaded k c => rw [hp] at ht; cases k <;> cases ht
  | up k l => rw [hp] at ht; cases l <;> cases ht
  | schedule n k l => rw [hp] at ht; cases l <;> cases ht

theorem work_eq (h : ∀ u, (s'.pc u).left = (s.pc u).left) : work s' = work s := by
  unfold work
  simp only [h]

/-! ## At `sem`

A member of a group that is leaving gets through `sem` because every member that is ahead of it
gives the token back. While one member is there the group goes on leaving (`AtSem.step`), `mut` is
not free, so nobody arrives, and each step of a thread inside lowers `work`. -/

/-- A member of a group that is leaving, not let through `sem` yet. -/
structure AtSem (limit : BitVec 32) (t : T) (s : State T) : Prop where
  control : Control s
  books : ∃ w, Books limit s .sem w
  before : (s.pc t).before = true

theorem member_of_before {p : Pc T} (h : p.before = true) : p.member = true := by
  cases p <;> first | exact h | cases h

/-- The next place of a member that is not let through yet. -/
theorem before_step (K : Control s) (hs : step limit s x = some s') (ht : (s.pc t).before = true) :
    s'.pc t = .past .sem ∨ (s'.pc t).before = true := by
  by_cases hx : t = x
  · subst hx
    have hself : ∀ (s₁ : State T) (p : Pc T), (s₁.setPc t p).pc t = p :=
      fun s₁ p => Function.update_self ..
    unfold step at hs
    cases hp : s.pc t with
    | outside => rw [hp] at ht; cases ht
    | down k =>
      rw [hp] at hs ht
      injection hs with hs
      subst hs
      rcases k with _ | _
      · cases ht
      · unfold State.down State.test
        split
        · exact Or.inl (hself _ _)
        · exact Or.inr (by rw [hself]; rfl)
    | again k =>
      rw [hp] at hs ht
      injection hs with hs
      subst hs
      rcases k with _ | _
      · cases ht
      · unfold State.downAgain State.test
        split
        · exact Or.inr (by rw [hself]; rfl)
        · exact Or.inr (by rw [hself]; rfl)
    | waiting k => rw [hp] at hs; cases hs
    | granted k => rw [hp] at hs; cases hs
    | rescheduled k =>
      rw [hp] at hs ht
      injection hs with hs
      subst hs
      rcases k with _ | _
      · cases ht
      · exact Or.inl (hself _ _)
    | past k => rw [hp] at ht; cases ht
    | loaded k c => rw [hp] at ht; cases ht
    | up k l =>
      rw [hp] at hs ht
      injection hs with hs
      subst hs
      cases l with
      | true => cases ht
      | false =>
        unfold State.up
        cases s.waiting k with
        | nil => exact Or.inr (by dsimp only; rw [hself]; rfl)
        | cons n rest => exact Or.inr (by dsimp only; rw [hself]; rfl)
    | schedule n k l =>
      rw [hp] at hs ht
      injection hs with hs
      subst hs
      cases l with
      | true => cases ht
      | false => exact Or.inr (by rw [hself]; rfl)
  -- another thread's step moves `t` only along the queue of `sem`
  · rcases step_pc hs t hx with h | ⟨k, l, rest, hp, hw, h⟩ | ⟨k, l, hp, h⟩
    · exact Or.inr (by rw [h]; exact ht)
    · have hwait : s.pc t = .waiting k := (K.waiting t k).mpr (by rw [hw]; exact List.mem_cons_self)
      rw [hwait] at ht
      exact Or.inr (by rw [h]; exact ht)
    · have hgr := K.hand x t k l hp
      rw [hgr] at ht
      rcases k with _ | _
      · cases ht
      · exact Or.inl h

/-- Nobody arrives while the group is leaving. -/
theorem Books.arrivals_sem (B : Books limit s .sem w) (hs : step limit s x = some s') :
    s'.arrivals = s.arrivals := by
  unfold step at hs
  cases hp : s.pc x with
  | outside => rw [hp] at hs; injection hs with hs; subst hs; rfl
  | down k =>
    rw [hp] at hs
    injection hs with hs
    subst hs
    unfold State.down State.test
    split <;> rfl
  | again k =>
    rw [hp] at hs
    injection hs with hs
    subst hs
    unfold State.downAgain State.test
    split <;> rfl
  | waiting k => rw [hp] at hs; cases hs
  | granted k => rw [hp] at hs; cases hs
  | rescheduled k => rw [hp] at hs; injection hs with hs; subst hs; rfl
  | past k => rw [hp] at hs; injection hs with hs; subst hs; rfl
  | loaded k c =>
    rw [hp] at hs
    rcases k with _ | _
    · cases (B.holder_eq (t := x) (i := .mut) (by rw [hp]; rfl)).2
    · injection hs with hs
      subst hs
      rfl
  | up k l =>
    rw [hp] at hs
    injection hs with hs
    subst hs
    unfold State.up
    cases s.waiting k <;> rfl
  | schedule n k l => rw [hp] at hs; injection hs with hs; subst hs; rfl

/-- The group goes on leaving while one of its members is there. -/
theorem AtSem.step (A : AtSem limit t s) (hlimit : 0 < limit.toNat) (hs : step limit s x = some s') :
    s'.pc t = .past .sem ∨ AtSem limit t s' := by
  obtain ⟨K, ⟨w, B⟩, hb⟩ := A
  rcases before_step K hs hb with h | h
  · exact Or.inl h
  · obtain ⟨K', k', w', B'⟩ := Inv.step ⟨K, .sem, w, B⟩ hlimit hs
    refine Or.inr ⟨K', ⟨w', ?_⟩, h⟩
    rcases k' with _ | _
    · -- nobody would be on the way
      have hpos : 0 < s'.count.toNat := by
        rw [← B'.members]
        exact Finset.card_pos.mpr ⟨t, Finset.mem_filter.mpr ⟨Finset.mem_univ t, member_of_before h⟩⟩
      rw [(B'.count_mut hlimit).1, B.arrivals_sem hs, Nat.mod_eq_zero_of_dvd B.phase.2] at hpos
      cases hpos
    · exact B'

theorem Books.value_sem (B : Books limit s .sem w) : ¬ 0 < s.value .mut := by
  rw [B.value .mut]
  cases w <;> simp [Token.value]

theorem Books.not_up_mut (B : Books limit s .sem w) (l : Bool) : s.pc x ≠ .up .mut l := by
  intro h
  cases (B.holder_eq (t := x) (i := .mut) (by rw [h]; rfl)).2

/-- A member gets through `sem`. -/
theorem helps_sem (hlimit : 0 < limit.toNat) (t : T) :
    Helps (step limit) id (fun s x => (s.pc x).moves = true) (AtSem limit t)
      (fun s => s.pc t = .past .sem) Active work := by
  refine ⟨?_, ?_, ?_, ?_, ?_⟩
  · intro s ⟨K, ⟨w, B⟩, _⟩ _
    exact B.active_sem K
  · exact fun s x _ _ h => h.2
  · exact fun s x s' A _ hs => A.step hlimit hs
  · intro s x s' ⟨K, ⟨w, B⟩, _⟩ _ hs hx
    exact Or.inr (work_lt K hs hx.1 fun l _ _ h => absurd h (B.not_up_mut l))
  · intro s x s' ⟨K, ⟨w, B⟩, _⟩ _ hs
    by_cases hx : 0 < (s.pc x).left
    · exact Or.inr (Or.inl (work_lt K hs hx fun l _ _ h => absurd h (B.not_up_mut l)))
    · have hx0 : (s.pc x).left = 0 := Nat.eq_zero_of_not_pos hx
      obtain ⟨hother, hself, -, -⟩ := step_outside hs hx0 B.value_sem
      refine Or.inr (Or.inr ⟨work_eq ?_, ?_⟩)
      · intro u
        by_cases hu : u = x
        · subst hu
          rw [hself, hx0]
        · rw [hother u hu]
      · intro u hu hne
        unfold Active
        rw [hother u hne]
        exact hu

/-! ## At `mut`

The measure has two parts, in lexicographic order: how many threads are ahead in the queue, and
what is left to do for the threads inside. The second grows where `mut` is handed over, and there
the first goes down; the queue is first come, first served, so nothing else changes who is ahead.
A thread at the second test of `down()` is one step away from the queue or past it. -/

/-- In the queue of `mut`, or out of it and not past `down()`. -/
def Pc.atMut : Pc T → Bool
  | waiting k | granted k | rescheduled k => k = .mut
  | _ => false

/-- How many threads will be given `mut` before `t`, `t` itself included. -/
def ahead (s : State T) (t : T) : Nat :=
  if s.pc t = .waiting .mut then (s.waiting .mut).idxOf t + 1 else 0

structure AtMut (limit : BitVec 32) (t : T) (s : State T) : Prop where
  inv : Inv limit s
  at_mut : (s.pc t).atMut = true

/-- While a thread is there the token is not free in `mut`. -/
theorem AtMut.not_free (A : AtMut limit t s) (B : Books limit s k w) : ¬ 0 < s.value .mut := by
  intro hv
  obtain ⟨rfl, rfl⟩ := B.free_of_value hv
  have hno : ∀ u k', (s.pc u).holds ≠ some k' := by
    intro u k' h
    cases (B.holder_eq h).1
  have ht := A.at_mut
  cases hp : s.pc t with
  | waiting k' =>
    rw [hp] at ht
    rcases k' with _ | _
    · have := (A.inv.control.waiting t .mut).mp hp
      rw [B.empty rfl] at this
      cases this
    · cases ht
  | granted k' => exact absurd (by rw [hp]; rfl) (hno t k')
  | rescheduled k' => exact absurd (by rw [hp]; rfl) (hno t k')
  | outside => rw [hp] at ht; cases ht
  | down k' => rw [hp] at ht; cases ht
  | again k' => rw [hp] at ht; cases ht
  | past k' => rw [hp] at ht; cases ht
  | loaded k' c => rw [hp] at ht; cases ht
  | up k' l => rw [hp] at ht; cases ht
  | schedule n k' l => rw [hp] at ht; cases ht

/-- The thread itself has one step to do. -/
theorem AtMut.own_step (A : AtMut limit t s) (hs : Barrier.step limit s t = some s') :
    s'.pc t = .past .mut := by
  have ht := A.at_mut
  unfold Barrier.step at hs
  cases hp : s.pc t with
  | waiting k' => rw [hp] at hs; cases hs
  | granted k' => rw [hp] at hs; cases hs
  | rescheduled k' =>
    rw [hp] at hs ht
    injection hs with hs
    subst hs
    rcases k' with _ | _
    · exact Function.update_self ..
    · cases ht
  | outside => rw [hp] at ht; cases ht
  | down k' => rw [hp] at ht; cases ht
  | again k' => rw [hp] at ht; cases ht
  | past k' => rw [hp] at ht; cases ht
  | loaded k' c => rw [hp] at ht; cases ht
  | up k' l => rw [hp] at ht; cases ht
  | schedule n k' l => rw [hp] at ht; cases ht

theorem AtMut.step (A : AtMut limit t s) (hlimit : 0 < limit.toNat) (hs : Barrier.step limit s x = some s') :
    s'.pc t = .past .mut ∨ AtMut limit t s' := by
  have I' := A.inv.step hlimit hs
  have ht := A.at_mut
  by_cases hx : t = x
  · subst hx
    exact Or.inl (A.own_step hs)
  · rcases step_pc hs t hx with h | ⟨k', l, rest, hp, hw, h⟩ | ⟨k', l, hp, h⟩
    · exact Or.inr ⟨I', by rw [h]; exact ht⟩
    · have hwait : s.pc t = .waiting k' :=
        (A.inv.control.waiting t k').mpr (by rw [hw]; exact List.mem_cons_self)
      rw [hwait] at ht
      exact Or.inr ⟨I', by rw [h]; exact ht⟩
    · have hgr := A.inv.control.hand x t k' l hp
      rw [hgr] at ht
      rcases k' with _ | _
      · exact Or.inl h
      · cases ht

/-- The queue of `mut` changes only where a thread joins it or `mut` is handed over. -/
theorem waiting_mut (hs : step limit s x = some s') (hx : 0 < (s.pc x).left) :
    s'.waiting .mut = s.waiting .mut ∨
    ∃ l n rest, s.pc x = .up .mut l ∧ s.waiting .mut = n :: rest ∧ s'.waiting .mut = rest := by
  unfold step at hs
  cases hp : s.pc x with
  | outside => rw [hp] at hx; cases hx
  | down k =>
    rw [hp] at hs
    injection hs with hs
    subst hs
    unfold State.down State.test
    split <;> exact Or.inl rfl
  | again k =>
    rw [hp] at hs hx
    injection hs with hs
    subst hs
    rcases k with _ | _
    · cases hx
    · unfold State.downAgain State.test
      split
      · exact Or.inl rfl
      · exact Or.inl (by simp [State.setWaiting_ne])
  | waiting k => rw [hp] at hs; cases hs
  | granted k => rw [hp] at hs; cases hs
  | rescheduled k => rw [hp] at hs; injection hs with hs; subst hs; exact Or.inl rfl
  | past k => rw [hp] at hs; injection hs with hs; subst hs; exact Or.inl rfl
  | loaded k c =>
    rw [hp] at hs
    rcases k with _ | _
    · injection hs with hs
      subst hs
      exact Or.inl rfl
    · injection hs with hs
      subst hs
      exact Or.inl rfl
  | up k l =>
    rw [hp] at hs
    injection hs with hs
    subst hs
    unfold State.up
    cases hw : s.waiting k with
    | nil => exact Or.inl rfl
    | cons n rest =>
      rcases k with _ | _
      · exact Or.inr ⟨l, n, rest, rfl, hw, by simp⟩
      · exact Or.inl (by simp [State.setWaiting_ne])
  | schedule n k l => rw [hp] at hs; injection hs with hs; subst hs; exact Or.inl rfl

/-- A step of a thread inside brings `t` nearer. -/
theorem AtMut.nearer (A : AtMut limit t s) (hlimit : 0 < limit.toNat) (hs : Barrier.step limit s x = some s')
    (hx : 0 < (s.pc x).left) (hgoal : ¬ s'.pc t = .past .mut) :
    toLex (ahead s' t, work s') < toLex (ahead s t, work s) := by
  obtain ⟨K, k, w, B⟩ := A.inv
  rw [Prod.Lex.toLex_lt_toLex]
  by_cases hhand : ∃ l n rest, s.pc x = .up .mut l ∧ s.waiting .mut = n :: rest
  · -- `mut` is handed over to the first of the queue
    obtain ⟨l, n, rest, hp, hw⟩ := hhand
    obtain ⟨rfl, -⟩ := B.holder_eq (t := x) (i := .mut) (by rw [hp]; rfl)
    have hwait : s.pc t = .waiting .mut := by
      have ht := A.at_mut
      have hno : ∀ k', (s.pc t).holds = some k' → t = x := by
        intro k' h
        exact (Token.held.inj (B.holder_eq h).1).symm
      cases hpt : s.pc t with
      | waiting k' =>
        rw [hpt] at ht
        rcases k' with _ | _
        · rfl
        · cases ht
      | granted k' =>
        rw [hno k' (by rw [hpt]; rfl), hp] at hpt
        cases hpt
      | rescheduled k' =>
        rw [hno k' (by rw [hpt]; rfl), hp] at hpt
        cases hpt
      | outside => rw [hpt] at ht; cases ht
      | down k' => rw [hpt] at ht; cases ht
      | again k' => rw [hpt] at ht; cases ht
      | past k' => rw [hpt] at ht; cases ht
      | loaded k' c => rw [hpt] at ht; cases ht
      | up k' l' => rw [hpt] at ht; cases ht
      | schedule m k' l' => rw [hpt] at ht; cases ht
    have htx : t ≠ x := by
      rintro rfl
      rw [hp] at hwait
      cases hwait
    have hw' : s'.waiting .mut = rest := by
      rcases waiting_mut hs hx with h | ⟨l', n', rest', _, h₁, h₂⟩
      · exfalso
        unfold Barrier.step at hs
        rw [hp] at hs
        injection hs with hs
        subst hs
        simp only [State.up, hw, State.setPc_waiting, State.grant_waiting, State.setWaiting_self] at h
        exact List.cons_ne_self n rest h.symm
      · rw [hw] at h₁
        injection h₁ with _ h₁
        rw [h₂, h₁]
    left
    unfold ahead
    rw [if_pos hwait, hw]
    by_cases htn : t = n
    · subst htn
      rcases step_pc hs t htx with h | ⟨k', l', rest', hp', hw₁, h⟩ | ⟨k', l', hp', h⟩
      · -- it would still be in the queue
        have hin := ((A.inv.step hlimit hs).control.waiting t .mut).mp (h.trans hwait)
        rw [hw'] at hin
        have hnd := K.nodup .mut
        rw [hw] at hnd
        exact absurd hin (List.nodup_cons.mp hnd).1
      · rw [h, if_neg (by simp)]
        exact Nat.succ_pos _
      · rw [hp] at hp'
        cases hp'
    · split
      · rw [hw', List.idxOf_cons_ne _ (Ne.symm htn)]
        exact Nat.lt_succ_self _
      · exact Nat.succ_pos _
  -- the queue of `mut` stays, and so does `t`; then the work decreases
  · have hlt : work s' < work s := by
      refine work_lt K hs hx ?_
      intro l n rest hp hw
      exact hhand ⟨l, n, rest, hp, hw⟩
    have hqueue : s'.waiting .mut = s.waiting .mut := by
      rcases waiting_mut hs hx with h | ⟨l, n, rest, hp, hw, _⟩
      · exact h
      · exact absurd ⟨l, n, rest, hp, hw⟩ hhand
    have hpc : s'.pc t = s.pc t := by
      have ht := A.at_mut
      by_cases htx : t = x
      · subst htx
        exact absurd (A.own_step hs) hgoal
      · rcases step_pc hs t htx with h | ⟨k', l, rest, hp, hw, _⟩ | ⟨k', l, hp, h⟩
        · exact h
        · have hwait : s.pc t = .waiting k' := (K.waiting t k').mpr (by rw [hw]; exact List.mem_cons_self)
          rw [hwait] at ht
          rcases k' with _ | _
          · exact absurd ⟨l, t, rest, hp, hw⟩ hhand
          · cases ht
        · rw [K.hand x t k' l hp] at ht
          rcases k' with _ | _
          · exact absurd h hgoal
          · cases ht
    have hahead : ahead s' t = ahead s t := by
      unfold ahead
      rw [hpc, hqueue]
    rw [hahead]
    exact Or.inr ⟨rfl, hlt⟩

/-- A thread gets `mut`. -/
theorem helps_mut (hlimit : 0 < limit.toNat) (t : T) :
    Helps (step limit) id (fun s x => (s.pc x).moves = true) (AtMut limit t)
      (fun s => s.pc t = .past .mut) Active (fun s => toLex (ahead s t, work s)) := by
  refine ⟨?_, ?_, ?_, ?_, ?_⟩
  · intro s A _
    obtain ⟨K, k, w, B⟩ := A.inv
    cases w with
    | held x => exact B.active_held K
    | free =>
      rcases k with _ | _
      · exact absurd (by rw [B.value .mut]; simp [Token.value]) (A.not_free B)
      · exact B.active_sem K
  · exact fun s x _ _ h => h.2
  · exact fun s x s' A _ hs => A.step hlimit hs
  · intro s x s' A _ hs hx
    by_cases hgoal : s'.pc t = .past .mut
    · exact Or.inl hgoal
    · exact Or.inr (A.nearer hlimit hs hx.1 hgoal)
  · intro s x s' A _ hs
    by_cases hgoal : s'.pc t = .past .mut
    · exact Or.inl hgoal
    · by_cases hx : 0 < (s.pc x).left
      · exact Or.inr (Or.inl (A.nearer hlimit hs hx hgoal))
      · have hx0 : (s.pc x).left = 0 := Nat.eq_zero_of_not_pos hx
        obtain ⟨k, w, B⟩ := A.inv.books
        obtain ⟨hother, hself, -, hqueue⟩ := step_outside hs hx0 (A.not_free B)
        have htx : t ≠ x := by
          rintro rfl
          exact hgoal (A.own_step hs)
        have hahead : ahead s' t = ahead s t := by
          unfold ahead
          rw [hother t htx]
          split
          · rename_i hwait
            rcases hqueue with h | h
            · rw [h]
            · rw [h, List.idxOf_append_of_mem ((A.inv.control.waiting t .mut).mp hwait)]
          · rfl
        refine Or.inr (Or.inr ⟨?_, ?_⟩)
        · rw [hahead, work_eq]
          intro u
          by_cases hu : u = x
          · subst hu
            rw [hself, hx0]
          · rw [hother u hu]
        · intro u hu hne
          unfold Active
          rw [hother u hne]
          exact hu

/-- The second test of `down()` leads to the queue or past it. -/
theorem helps_again (hlimit : 0 < limit.toNat) (t : T) :
    Helps (step limit) id (fun s x => (s.pc x).moves = true)
      (fun s => Inv limit s ∧ s.pc t = .again .mut) (AtMut limit t) (fun _ x => x = t)
      (fun _ => (0 : Nat)) := by
  have hown : ∀ s s' : State T, Inv limit s → s.pc t = .again .mut → step limit s t = some s' →
      AtMut limit t s' := by
    intro s s' I hp hs
    refine ⟨I.step hlimit hs, ?_⟩
    unfold step at hs
    rw [hp] at hs
    injection hs with hs
    subst hs
    unfold State.downAgain State.test
    split
    · simp [State.setPc, Pc.atMut]
    · simp [State.setPc, Pc.atMut]
  have hother : ∀ s s' : State T, ∀ x, Inv limit s → s.pc t = .again .mut → step limit s x = some s' →
      x ≠ t → s'.pc t = .again .mut := by
    intro s s' x I hp hs hx
    rcases step_pc hs t (Ne.symm hx) with h | ⟨k, l, rest, _, hw, _⟩ | ⟨k, l, hpx, _⟩
    · rw [h, hp]
    · have hwait := (I.control.waiting t k).mpr (by rw [hw]; exact List.mem_cons_self)
      rw [hp] at hwait
      cases hwait
    · have hgr := I.control.hand x t k l hpx
      rw [hp] at hgr
      cases hgr
  refine ⟨?_, ?_, ?_, ?_, ?_⟩
  · exact fun s _ _ => ⟨t, rfl⟩
  · rintro s x ⟨I, hp⟩ _ rfl
    show (s.pc x).moves = true
    rw [hp]
    rfl
  · rintro s x s' ⟨I, hp⟩ _ hs
    by_cases hx : x = t
    · subst hx
      exact Or.inl (hown s s' I hp hs)
    · exact Or.inr ⟨I.step hlimit hs, hother s s' x I hp hs hx⟩
  · rintro s x s' ⟨I, hp⟩ _ hs rfl
    exact Or.inl (hown s s' I hp hs)
  · rintro s x s' ⟨I, hp⟩ _ hs
    by_cases hx : x = t
    · subst hx
      exact Or.inl (hown s s' I hp hs)
    · exact Or.inr (Or.inr ⟨rfl, fun u hu _ => hu⟩)

/-! ## Every run

From any state that can be reached and any thread that is switched out, the rules for the two
semaphores give `GetsPast`. At `sem` this needs that the thread's group is complete, and
`atSem_of_blocked` is where that is used: a complete group is one that is leaving. -/

/-- Switched out at `k`: before the second test, in the queue, or out of it and not yet
scheduled. -/
def Blocked (s : State T) (k : Sem) (t : T) : Prop :=
  s.pc t = .again k ∨ s.pc t = .waiting k ∨ s.pc t = .granted k

/-- In every fair run from here `down()` returns to `t`, and there is such a way on. -/
def GetsPast (limit : BitVec 32) (s : State T) (k : Sem) (t : T) : Prop :=
  (∀ r : Nat → State T, r 0 = s → FairRun (step limit) id (fun s x => (s.pc x).moves = true) r →
    ∃ m, (r m).pc t = .past k) ∧
  ∃ ts s', runs (step limit) s ts = some s' ∧ s'.pc t = .past k

theorem step_of_moves (h : (s.pc x).moves = true) : ∃ a s', id a = x ∧ step limit s a = some s' := by
  refine ⟨x, ?_⟩
  unfold step
  cases hp : s.pc x with
  | outside => rw [hp] at h; cases h
  | waiting k => rw [hp] at h; cases h
  | granted k => rw [hp] at h; cases h
  | loaded k c => cases k <;> exact ⟨_, rfl, rfl⟩
  | _ => exact ⟨_, rfl, rfl⟩

theorem AtMut.getsPast (A : AtMut limit t s) (hlimit : 0 < limit.toNat) : GetsPast limit s .mut t := by
  refine ⟨?_, ?_⟩
  · intro r hr F
    obtain ⟨m, -, hm⟩ := (helps_mut hlimit t).reached F 0 (by rw [hr]; exact A)
    exact ⟨m, hm⟩
  · exact (helps_mut hlimit t).reachable (fun s x _ h => step_of_moves h) A

theorem getsPast_mut (I : Inv limit s) (hlimit : 0 < limit.toNat) (hb : Blocked s .mut t) :
    GetsPast limit s .mut t := by
  rcases hb with hp | hp | hp
  · refine ⟨?_, ?_⟩
    · intro r hr F
      obtain ⟨m, -, hm⟩ := (helps_again hlimit t).reached F 0 (by rw [hr]; exact ⟨I, hp⟩)
      obtain ⟨n, -, hn⟩ := (helps_mut hlimit t).reached F m hm
      exact ⟨n, hn⟩
    · obtain ⟨as, s', hrun, A⟩ := (helps_again hlimit t).reachable
        (fun s x _ h => step_of_moves h) ⟨I, hp⟩
      obtain ⟨bs, s'', hrun', hp'⟩ := (A.getsPast hlimit).2
      exact ⟨as ++ bs, s'', by rw [runs_append, hrun]; exact hrun', hp'⟩
  · exact AtMut.getsPast ⟨I, by rw [hp]; rfl⟩ hlimit
  · exact AtMut.getsPast ⟨I, by rw [hp]; rfl⟩ hlimit

theorem AtSem.getsPast (A : AtSem limit t s) (hlimit : 0 < limit.toNat) : GetsPast limit s .sem t := by
  refine ⟨?_, ?_⟩
  · intro r hr F
    obtain ⟨m, -, hm⟩ := (helps_sem hlimit t).reached F 0 (by rw [hr]; exact A)
    exact ⟨m, hm⟩
  · exact (helps_sem hlimit t).reachable (fun s x _ h => step_of_moves h) A

/-- A thread at `sem` whose group is complete: the group is leaving. -/
theorem atSem_of_blocked (I : Inv limit s) (hlimit : 0 < limit.toNat) (hb : Blocked s .sem t)
    (hfull : limit.toNat * ((s.turn t - 1) / limit.toNat + 1) ≤ s.arrivals) : AtSem limit t s := by
  obtain ⟨K, k, w, B⟩ := I
  have hbefore : (s.pc t).before = true := by
    rcases hb with h | h | h <;> rw [h] <;> rfl
  refine ⟨K, ⟨w, ?_⟩, hbefore⟩
  rcases k with _ | _
  · -- the group that gathers is the thread's own
    exfalso
    have hturn := B.turn_mut hlimit (member_of_before hbefore)
    have hdiv : s.arrivals / limit.toNat ≤ (s.turn t - 1) / limit.toNat := by
      rw [Nat.le_div_iff_mul_le hlimit, Nat.mul_comm]
      omega
    have hle : limit.toNat * (s.arrivals / limit.toNat + 1) ≤ s.arrivals :=
      Nat.le_trans (Nat.mul_le_mul_left _ (Nat.succ_le_succ hdiv)) hfull
    have hlt := Nat.lt_mul_div_succ s.arrivals hlimit
    omega
  · exact B

theorem Inv.runs (hlimit : 0 < limit.toNat) {ts : List T} (I : Inv limit s)
    (hr : runs (Barrier.step limit) s ts = some s') : Inv limit s' :=
  runs_inv (Inv limit) (fun _ _ _ I _ hs => I.step hlimit hs) I
    (RunOk.of_forall (fun _ _ => trivial) _ _) hr

/-- Generations do not mix: the calls let through the inner `down()` are of groups that are
complete; a thread arrives only when the groups before have left; `count` is the difference of
arrivals and leaves and at most `limit`; and no thread that is blocked stays so for ever, at `sem`
once its group is complete, at `mut` in any case. -/
theorem barrier_separates (limit : BitVec 32) (hlimit : 1 ≤ limit.toNat) (ts : List T) (s : State T)
    (hr : runs (step limit) State.init ts = some s) :
    s.passes ≤ limit.toNat * (s.arrivals / limit.toNat) ∧
    (∀ t s', step limit s t = some s' → s'.arrivals ≠ s.arrivals →
      s.leaves = limit.toNat * (s.arrivals / limit.toNat)) ∧
    s.count.toNat + s.leaves = s.arrivals ∧ s.count.toNat ≤ limit.toNat ∧
    (∀ t, Blocked s .sem t → limit.toNat * ((s.turn t - 1) / limit.toNat + 1) ≤ s.arrivals →
      GetsPast limit s .sem t) ∧
    ∀ t, Blocked s .mut t → GetsPast limit s .mut t := by
  have I := (Inv.init limit).runs hlimit hr
  obtain ⟨K, k, w, B⟩ := I
  have I : Inv limit s := ⟨K, k, w, B⟩
  have hcount := B.count
  refine ⟨?_, ?_, hcount, B.bound, ?_, fun t hb => getsPast_mut I hlimit hb⟩
  · rw [B.passes]
    have hpass : w.pass s.pc ≤ 1 := by
      cases w with
      | free => exact Nat.zero_le 1
      | held t =>
        rw [Token.pass_held]
        split
        · exact Nat.le_refl 1
        · exact Nat.zero_le 1
    rcases k with _ | _
    · -- nobody is between `sem` and its leave
      have h0 : w.pass s.pc = 0 := by
        cases w with
        | free => rfl
        | held t =>
          have hk := (B.holder t .mut).mpr ⟨rfl, rfl⟩
          rw [Token.pass_held]
          cases hp : s.pc t <;> rw [hp] at hk <;> simp_all [Pc.holds, Pc.passing]
      rw [h0, Nat.add_zero]
      exact Nat.le_of_eq B.phase
    · obtain ⟨hpos, hdvd⟩ : 0 < s.count.toNat ∧ limit.toNat ∣ s.arrivals := B.phase
      rw [Nat.mul_div_cancel' hdvd]
      omega
  · intro t s' hs hne
    rcases k with _ | _
    · exact B.phase
    · exact absurd (B.arrivals_sem hs) hne
  · exact fun t hb hfull => (atSem_of_blocked I hlimit hb hfull).getsPast hlimit

/-- One of two threads waits at `sem`, and the other arrives. -/
def meetingRun : List Bool := List.replicate 7 false ++ List.replicate 4 true

theorem barrier_separates_meeting :
    ∃ s : State Bool, runs (step 2#32) State.init meetingRun = some s ∧
      s.pc false = .waiting .sem ∧ s.passes ≤ 2 * (s.arrivals / 2) ∧ GetsPast 2#32 s .sem false := by
  have hobs : (runs (step 2#32) State.init meetingRun).map
      (fun s : State Bool => (s.pc false, s.turn false, s.arrivals)) =
      some (.waiting .sem, 1, 2) := by decide
  obtain ⟨s, hs, hobs⟩ := Option.map_eq_some_iff.mp hobs
  injection hobs with hp hobs
  injection hobs with hturn harrivals
  have h := barrier_separates 2#32 (by decide) meetingRun s hs
  refine ⟨s, hs, hp, h.1, h.2.2.2.2.1 false (Or.inr (Or.inl hp)) ?_⟩
  rw [hturn, harrivals]
  decide

end OsKernel.Barrier
