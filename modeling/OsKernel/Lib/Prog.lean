import Mathlib.Algebra.GroupWithZero.Nat

/-!
# Programs that may stop, and what they guarantee

A program over a state `σ` either returns a value or *stops* with a reason `ε`. In both cases
there is a state afterwards: a kernel that panics or kills the running process in the middle of
an operation leaves memory the way it was at that moment, and what is left behind is part of
what has to be proved. `EStateM` is that monad, and this file adds the two things the
developments over it use:

* `Prog.wp x Q E s`: run from `s`, the program `x` ends in `Q` if it returns and in `E` if it
  stops. The rules below push `wp` through `do` blocks, so that a proof about a program follows
  its text.
* `forI n body`: the loop `for (i = 0; i < n; i++) body(i)`, and its invariant rule.

Nothing here names a machine or a kernel.
-/

set_option autoImplicit false

namespace OsKernel.Lib

/-- A program over `σ` that returns an `α` or stops with an `ε`. -/
abbrev Prog (ε σ α : Type) := EStateM ε σ α

namespace Prog

variable {ε σ α β : Type}

/-- From `s`, `x` either returns and ends in `Q`, or stops and ends in `E`. -/
def wp (x : Prog ε σ α) (Q : α → σ → Prop) (E : ε → σ → Prop) (s : σ) : Prop :=
  match x s with
  | .ok a s' => Q a s'
  | .error e s' => E e s'

variable {Q Q' : α → σ → Prop} {E E' : ε → σ → Prop} {s : σ}

@[simp] theorem wp_pure (a : α) : wp (pure a : Prog ε σ α) Q E s ↔ Q a s := Iff.rfl

@[simp] theorem wp_bind (x : Prog ε σ β) (f : β → Prog ε σ α) :
    wp (x >>= f) Q E s ↔ wp x (fun b s' => wp (f b) Q E s') E s := by
  simp only [wp, bind, EStateM.bind]
  cases x s <;> rfl

@[simp] theorem wp_map (x : Prog ε σ β) (f : β → α) :
    wp (f <$> x) Q E s ↔ wp x (fun b s' => Q (f b) s') E s := by
  simp only [wp, Functor.map, EStateM.map]
  cases x s <;> rfl

@[simp] theorem wp_get {Q : σ → σ → Prop} : wp (get : Prog ε σ σ) Q E s ↔ Q s s := Iff.rfl

@[simp] theorem wp_set {Q : PUnit → σ → Prop} (t : σ) :
    wp (set t : Prog ε σ PUnit) Q E s ↔ Q ⟨⟩ t := Iff.rfl

@[simp] theorem wp_modify {Q : PUnit → σ → Prop} (f : σ → σ) :
    wp (modify f : Prog ε σ PUnit) Q E s ↔ Q ⟨⟩ (f s) := Iff.rfl

@[simp] theorem wp_throw (e : ε) : wp (throw e : Prog ε σ α) Q E s ↔ E e s := Iff.rfl

@[simp] theorem wp_ite (c : Prop) [Decidable c] (x y : Prog ε σ α) :
    wp (if c then x else y) Q E s ↔ if c then wp x Q E s else wp y Q E s := by
  split <;> rfl

/-- The consequence rule. -/
theorem wp_mono {x : Prog ε σ α} (h : wp x Q E s) (hq : ∀ a s', Q a s' → Q' a s')
    (he : ∀ e s', E e s' → E' e s') : wp x Q' E' s := by
  unfold wp at h ⊢
  cases hx : x s with
  | ok a s' => rw [hx] at h; exact hq a s' h
  | error e s' => rw [hx] at h; exact he e s' h

/-- Sequencing with a known guarantee of the first half. -/
theorem wp_seq {x : Prog ε σ β} {f : β → Prog ε σ α} {R : β → σ → Prop} (h : wp x R E s)
    (hf : ∀ b s', R b s' → wp (f b) Q E s') : wp (x >>= f) Q E s :=
  (wp_bind x f).mpr (wp_mono h hf fun _ _ he => he)

theorem wp_and {x : Prog ε σ α} (h : wp x Q E s) (h' : wp x Q' E' s) :
    wp x (fun a t => Q a t ∧ Q' a t) (fun e t => E e t ∧ E' e t) s := by
  unfold wp at h h' ⊢
  cases hx : x s with
  | ok a s' => rw [hx] at h h'; exact ⟨h, h'⟩
  | error e s' => rw [hx] at h h'; exact ⟨h, h'⟩

/-- A run that guarantees each of a family of things guarantees them all. -/
theorem wp_forall {ι : Type} {x : Prog ε σ α} {Q : ι → α → σ → Prop}
    (h : ∀ i, wp x (Q i) (fun _ _ => True) s) :
    wp x (fun a t => ∀ i, Q i a t) (fun _ _ => True) s := by
  unfold wp at *
  cases hx : x s with
  | ok a s' =>
    rw [hx] at h
    exact h
  | error e s' => trivial

/-- What holds of all outcomes holds of that of a run. -/
theorem wp_of_forall {x : Prog ε σ α} (hq : ∀ a s', Q a s') (he : ∀ e s', E e s') : wp x Q E s := by
  unfold wp
  split
  · exact hq _ _
  · exact he _ _

/-- A guarantee read at a run that returned. -/
theorem wp_ok {x : Prog ε σ α} {a : α} {s' : σ} (h : wp x Q E s) (hx : x s = .ok a s') :
    Q a s' := by
  unfold wp at h
  rw [hx] at h
  exact h

/-- A guarantee read at a run that stopped. -/
theorem wp_error {x : Prog ε σ α} {e : ε} {s' : σ} (h : wp x Q E s) (hx : x s = .error e s') :
    E e s' := by
  unfold wp at h
  rw [hx] at h
  exact h

/-- A program that cannot stop returns. -/
theorem wp_returns {x : Prog ε σ α} (h : wp x Q (fun _ _ => False) s) :
    ∃ a s', x s = .ok a s' ∧ Q a s' := by
  unfold wp at h
  cases hx : x s with
  | ok a s' => rw [hx] at h; exact ⟨a, s', rfl, h⟩
  | error e s' => rw [hx] at h; exact h.elim

/-- From `s`, `x` returns, and `p` says yes to what it leaves. -/
def test (x : Prog ε σ α) (p : α → σ → Bool) (s : σ) : Bool :=
  match x s with
  | .ok a s' => p a s'
  | .error _ _ => false

theorem test_iff {x : Prog ε σ α} {p : α → σ → Bool} :
    test x p s = true ↔ ∃ a s', x s = .ok a s' ∧ p a s' = true := by
  unfold test
  cases x s with
  | ok a s' =>
    refine ⟨fun h => ⟨a, s', rfl, h⟩, ?_⟩
    rintro ⟨_, _, hx, h⟩
    cases hx
    exact h
  | error e s' =>
    refine ⟨fun h => (by cases h), ?_⟩
    rintro ⟨_, _, hx, -⟩
    cases hx

/-- From `s`, `x` stops, and `p` says yes to how it does and what it leaves. -/
def testStop (x : Prog ε σ α) (p : ε → σ → Bool) (s : σ) : Bool :=
  match x s with
  | .ok _ _ => false
  | .error e s' => p e s'

theorem testStop_iff {x : Prog ε σ α} {p : ε → σ → Bool} :
    testStop x p s = true ↔ ∃ e s', x s = .error e s' ∧ p e s' = true := by
  unfold testStop
  cases x s with
  | ok a s' =>
    refine ⟨fun h => (by cases h), ?_⟩
    rintro ⟨_, _, hx, -⟩
    cases hx
  | error e s' =>
    refine ⟨fun h => ⟨e, s', rfl, h⟩, ?_⟩
    rintro ⟨_, _, hx, h⟩
    cases hx
    exact h

/-! ## The counting loop -/

/-- `for (i = 0; i < n; i++) body(i)`. -/
def forI : Nat → (Nat → Prog ε σ Unit) → Prog ε σ Unit
  | 0, _ => pure ()
  | n + 1, body => do
    forI n body
    body n

theorem forI_zero (body : Nat → Prog ε σ Unit) : forI 0 body = pure () := rfl

theorem forI_succ (n : Nat) (body : Nat → Prog ε σ Unit) :
    forI (n + 1) body = (do forI n body; body n) := rfl

/-- The invariant rule: `I i` holds before iteration `i`, so `I n` holds at the end. -/
theorem wp_forI {n : Nat} {body : Nat → Prog ε σ Unit} {I : Nat → σ → Prop}
    (hbody : ∀ i, i < n → ∀ t, I i t → wp (body i) (fun _ => I (i + 1)) E t) (h0 : I 0 s) :
    wp (forI n body) (fun _ => I n) E s := by
  induction n with
  | zero => exact h0
  | succ n ih =>
    refine wp_seq (ih fun i hi => hbody i (Nat.lt_succ_of_lt hi)) fun _ t ht => ?_
    exact hbody n (Nat.lt_succ_self n) t ht

/-- The loop with a local variable: `for (i = 0; i < n; i++) a = body(i, a)`. -/
def foldI : Nat → α → (Nat → α → Prog ε σ α) → Prog ε σ α
  | 0, a, _ => pure a
  | n + 1, a, body => do
    let b ← foldI n a body
    body n b

theorem foldI_zero (a : α) (body : Nat → α → Prog ε σ α) : foldI 0 a body = pure a := rfl

theorem foldI_succ (n : Nat) (a : α) (body : Nat → α → Prog ε σ α) :
    foldI (n + 1) a body = (do let b ← foldI n a body; body n b) := rfl

/-- The invariant rule for a loop with a local variable. -/
theorem wp_foldI {n : Nat} {a : α} {body : Nat → α → Prog ε σ α} {I : Nat → α → σ → Prop}
    (hbody : ∀ i, i < n → ∀ b t, I i b t → wp (body i b) (I (i + 1)) E t) (h0 : I 0 a s) :
    wp (foldI n a body) (I n) E s := by
  induction n with
  | zero => exact h0
  | succ n ih =>
    refine wp_seq (ih fun i hi => hbody i (Nat.lt_succ_of_lt hi)) fun b t ht => ?_
    exact hbody n (Nat.lt_succ_self n) b t ht

/- A loop is reasoned about by its rule and never unrolled. -/
attribute [irreducible] forI foldI

end Prog

end OsKernel.Lib
