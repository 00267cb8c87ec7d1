import Mathlib.Logic.Basic

/-!
# Programs among others

A *task* is a program that asks its surroundings for one thing after the other. The
surroundings answer, or keep it waiting. One answer is one step, and others may run before
each.

`Runs` is its weakest precondition among them. While the task does not run the world changes
as `rely` says; the task itself changes it as `guar` says. A world may be *bad*: nothing is
promised of what comes after.

A task is data, so that a scheduler can keep what is left of it; `do` notation builds it.
`Runs` is defined along the task and has the rules of a weakest precondition, with one more
obligation at each request, that what is known survives `rely`. `Waits` is `Runs` for a task
that is in the hand of the scheduler, and is what an invariant says of each task that has not
ended: it is kept by steps of others (`Waits.stable`) and by its own (`Waits.step`).

Bad worlds are for systems that go wrong in ways of which one wants to say when, and not what
happens then.
-/

set_option autoImplicit false

namespace OsKernel.Lib

/-- A program that asks for `Q`s, and returns an `α` or stops with an `ε`. -/
inductive Task (Q : Type) (A : Q → Type) (ε α : Type) : Type
  | ret (a : α)
  | stop (e : ε)
  | ask (q : Q) (k : A q → Task Q A ε α)

namespace Task

variable {Q : Type} {A : Q → Type} {ε α β : Type}

def bind : Task Q A ε α → (α → Task Q A ε β) → Task Q A ε β
  | ret a, f => f a
  | stop e, _ => stop e
  | ask q k, f => ask q fun a => (k a).bind f

instance : Monad (Task Q A ε) where
  pure := ret
  bind := bind

/-- The task that asks for one thing. -/
def request (q : Q) : Task Q A ε (A q) := ask q ret

variable {I W : Type} (handle : I → (q : Q) → W → Option (A q × W))

/-- One answer; none while the task has to wait, and when it has ended. -/
def step (i : I) : Task Q A ε α → W → Option (Task Q A ε α × W)
  | ask q k, w => (handle i q w).map fun r => (k r.1, r.2)
  | _, _ => none

/-! ## The precondition -/

/-- What a task may count on, and what it promises. -/
structure Terms (W : Type) where
  rely : W → W → Prop
  guar : W → W → Prop
  bad : W → Prop
  rely_refl : ∀ w, rely w w
  rely_trans : ∀ {w w' w''}, rely w w' → rely w' w'' → rely w w''

variable (T : Terms W) (Post : α → W → Prop) (E : ε → Prop)

/-- From this world on, the task ends in `Post` or stops in `E`. -/
def Runs : Task Q A ε α → W → Prop
  | ret a, w => Post a w
  | stop e, _ => E e
  | ask q k, w => ∀ w', T.rely w w' → ∀ i r, handle i q w' = some r → ¬T.bad r.2 →
      T.guar w' r.2 ∧ Runs (k r.1) r.2

/-- A task that has not returned. -/
def Waits : Task Q A ε α → W → Prop
  | ret _, _ => False
  | stop e, _ => E e
  | ask q k, w => Runs handle T Post E (ask q k) w

variable {handle T Post E} {Post' : α → W → Prop} {Q' : β → W → Prop} {w w' : W}

theorem Runs.mono {x : Task Q A ε α} (h : Runs handle T Post E x w)
    (hp : ∀ a w, Post a w → Post' a w) : Runs handle T Post' E x w := by
  induction x generalizing w with
  | ret a => exact hp a w h
  | stop e => exact h
  | ask q k ih =>
    intro w' hrely i r hr hb
    obtain ⟨hguar, hrun⟩ := h w' hrely i r hr hb
    exact ⟨hguar, ih _ hrun⟩

/-- One task behind the other. -/
theorem Runs.bind {x : Task Q A ε α} {f : α → Task Q A ε β} (h : Runs handle T Post E x w)
    (hf : ∀ a w, Post a w → Runs handle T Q' E (f a) w) : Runs handle T Q' E (x >>= f) w := by
  show Runs handle T Q' E (x.bind f) w
  induction x generalizing w with
  | ret a => exact hf a w h
  | stop e => exact h
  | ask q k ih =>
    intro w' hrely i r hr hb
    obtain ⟨hguar, hrun⟩ := h w' hrely i r hr hb
    exact ⟨hguar, ih _ hrun⟩

theorem Runs.pure {a : α} (h : Post a w) : Runs handle T Post E (Pure.pure a) w := h

theorem Runs.ite {c : Prop} [Decidable c] {x y : Task Q A ε α} (hx : c → Runs handle T Post E x w)
    (hy : ¬c → Runs handle T Post E y w) : Runs handle T Post E (if c then x else y) w := by
  split
  · rename_i hc
    exact hx hc
  · rename_i hc
    exact hy hc

/-- One request. What is known of the world holds until it is answered. -/
theorem Runs.request {q : Q} {Post : A q → W → Prop} {K : W → Prop} (hw : K w)
    (hstable : ∀ {w w'}, K w → T.rely w w' → K w')
    (h : ∀ w, K w → ∀ i r, handle i q w = some r → ¬T.bad r.2 → T.guar w r.2 ∧ Post r.1 r.2) :
    Runs handle T Post E (request q) w :=
  fun w' hrely => h w' (hstable hw hrely)

/-! ## Among others -/

/-- A task has returned, or others may run. -/
theorem Runs.waits {x : Task Q A ε α} (h : Runs handle T Post E x w) :
    (∃ a, x = ret a ∧ Post a w) ∨ Waits handle T Post E x w := by
  cases x with
  | ret a => exact Or.inl ⟨a, rfl, h⟩
  | stop e => exact Or.inr h
  | ask q k => exact Or.inr h

/-- What others do keeps a task waiting. -/
theorem Waits.stable {x : Task Q A ε α} (h : Waits handle T Post E x w) (hrely : T.rely w w') :
    Waits handle T Post E x w' := by
  cases x with
  | ret a => exact h
  | stop e => exact h
  | ask q k => exact fun w'' hrely' => h w'' (T.rely_trans hrely hrely')

/-- One step of a task. -/
theorem Waits.step {x : Task Q A ε α} {i : I} {r : Task Q A ε α × W}
    (h : Waits handle T Post E x w) (hstep : x.step handle i w = some r) (hb : ¬T.bad r.2) :
    T.guar w r.2 ∧ Runs handle T Post E r.1 r.2 := by
  cases x with
  | ret a => cases hstep
  | stop e => cases hstep
  | ask q k =>
    obtain ⟨r', hr, rfl⟩ := Option.map_eq_some_iff.mp hstep
    exact h w (T.rely_refl w) i r' hr hb

end Task

end OsKernel.Lib
