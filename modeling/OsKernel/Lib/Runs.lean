import Mathlib.Algebra.GroupWithZero.Nat

/-!
# Runs of a partial step function

`step s a` is the state after input `a`, or nothing if the system stops there. A run feeds it
a list of inputs. `runs_inv` is the induction every invariant goes through; the condition `ok`
may be assumed of each step of the run.

Being a function, a run can be evaluated, and `RunOk` decided along it. So what an invariant
is proved of and what an example shows are the same runs.

`guarded` turns a condition on steps into a system without the other steps, for which the
condition is no longer needed.
-/

set_option autoImplicit false

namespace OsKernel.Lib

variable {σ α : Type}

/-- The state after the inputs, if the system gets that far. -/
def runs (step : σ → α → Option σ) : σ → List α → Option σ
  | s, [] => some s
  | s, a :: as => (step s a).bind fun t => runs step t as

/-- Each step of the run meets `ok`. -/
def RunOk (step : σ → α → Option σ) (ok : σ → α → Prop) : σ → List α → Prop
  | _, [] => True
  | s, a :: as => ok s a ∧ ∀ t, step s a = some t → RunOk step ok t as

variable {step : σ → α → Option σ} {ok : σ → α → Prop}

instance RunOk.decidable [∀ s a, Decidable (ok s a)] :
    ∀ (as : List α) (s : σ), Decidable (RunOk step ok s as)
  | [], _ => isTrue trivial
  | a :: as, s =>
    match h : step s a with
    | none => decidable_of_iff (ok s a)
      ⟨fun hok => ⟨hok, fun t ht => absurd (h.symm.trans ht) (by simp)⟩, fun hr => hr.1⟩
    | some u =>
      have := RunOk.decidable as u
      decidable_of_iff (ok s a ∧ RunOk step ok u as)
        ⟨fun hr => ⟨hr.1, fun t ht => Option.some.inj (h.symm.trans ht) ▸ hr.2⟩,
          fun hr => ⟨hr.1, hr.2 u h⟩⟩

theorem runs_cons {s t : σ} {a : α} {as : List α} :
    runs step s (a :: as) = some t ↔ ∃ u, step s a = some u ∧ runs step u as = some t := by
  show ((step s a).bind fun t => runs step t as) = some t ↔ _
  rw [Option.bind_eq_some_iff]

theorem runs_append (s : σ) (as bs : List α) :
    runs step s (as ++ bs) = (runs step s as).bind fun t => runs step t bs := by
  induction as generalizing s with
  | nil => rfl
  | cons a as ih =>
    show ((step s a).bind fun t => runs step t (as ++ bs)) = ((step s a).bind _).bind _
    rw [Option.bind_assoc]
    congr 1
    funext t
    exact ih t

/-- What every allowed step keeps holds at the end of an allowed run. -/
theorem runs_inv (Inv : σ → Prop) (hstep : ∀ s a t, Inv s → ok s a → step s a = some t → Inv t) :
    ∀ {as : List α} {s t : σ}, Inv s → RunOk step ok s as → runs step s as = some t → Inv t := by
  intro as
  induction as with
  | nil =>
    intro s t hs _ hr
    obtain rfl := Option.some.inj hr
    exact hs
  | cons a as ih =>
    intro s t hs hok hr
    obtain ⟨u, hu, hr⟩ := runs_cons.mp hr
    exact ih (hstep s a u hs hok.1 hu) (hok.2 u hu) hr

/-- A condition that every step meets. -/
theorem RunOk.of_forall (h : ∀ s a, ok s a) : ∀ (as : List α) (s : σ), RunOk step ok s as
  | [], _ => trivial
  | a :: as, s => ⟨h s a, fun t _ => RunOk.of_forall h as t⟩

theorem RunOk.mono {ok' : σ → α → Prop} (h : ∀ s a, ok s a → ok' s a) :
    ∀ {as : List α} {s : σ}, RunOk step ok s as → RunOk step ok' s as := by
  intro as
  induction as with
  | nil => exact fun _ => trivial
  | cons a as ih => exact fun hr => ⟨h _ _ hr.1, fun t ht => ih (hr.2 t ht)⟩

/-- The system that takes no step but those that meet `ok`. -/
def guarded (step : σ → α → Option σ) (ok : σ → α → Prop) [∀ s a, Decidable (ok s a)] (s : σ) (a : α) :
    Option σ :=
  if ok s a then step s a else none

/-- Its runs are the allowed runs. -/
theorem runs_guarded [∀ s a, Decidable (ok s a)] :
    ∀ {as : List α} {s t : σ}, runs (guarded step ok) s as = some t →
      runs step s as = some t ∧ RunOk step ok s as := by
  intro as
  induction as with
  | nil => exact fun hr => ⟨hr, trivial⟩
  | cons a as ih =>
    intro s t hr
    obtain ⟨u, hu, hr⟩ := runs_cons.mp hr
    obtain ⟨hr', hok⟩ := ih hr
    unfold guarded at hu
    split at hu
    · rename_i ha
      refine ⟨runs_cons.mpr ⟨u, hu, hr'⟩, ha, fun v hv => ?_⟩
      obtain rfl := Option.some.inj (hu.symm.trans hv)
      exact hok
    · cases hu

end OsKernel.Lib
