import Mathlib.Order.WellFounded
import OsKernel.Lib.Runs

/-!
# Fair runs and ranks

A run goes on for ever, and any party may rest at any time, but a party that can move as long
as it has not does move at last. `Helps` is the rule for what such a run must reach: while the
goal is not reached some party can help, its steps bring the rank down, and no step of another
party takes it out of its way or lets the rank rise.

The rank is in any well-founded order; pairs in the lexicographic one serve where something
comes before something else. Who helps may change from step to step. Nothing is said about
fairness to parties that can move now and then only, so a lock that is taken by chance is no
case of it; a queue is.

`reachable` is the other half, and needs no fairness: the goal can be reached from here. With
it a statement about all fair runs is not one about none.
-/

set_option autoImplicit false

namespace OsKernel.Lib

variable {σ α θ ρ : Type}

/-- `can s x`: the party `x` can move in the state `s`. -/
structure FairRun (step : σ → α → Option σ) (actor : α → θ) (can : σ → θ → Prop) (s : Nat → σ) :
    Prop where
  next : ∀ n, s (n + 1) = s n ∨ ∃ a, step (s n) a = some (s (n + 1))
  fair : ∀ n x, (∀ m, n ≤ m → can (s m) x) →
    ∃ m a, n ≤ m ∧ actor a = x ∧ step (s m) a = some (s (m + 1))

/-- From the states of `Inv` some party helps on to `Goal`. -/
structure Helps [LT ρ] (step : σ → α → Option σ) (actor : α → θ) (can : σ → θ → Prop)
    (Inv Goal : σ → Prop) (helps : σ → θ → Prop) (rank : σ → ρ) : Prop where
  someone : ∀ s, Inv s → ¬ Goal s → ∃ x, helps s x
  can : ∀ s x, Inv s → ¬ Goal s → helps s x → can s x
  inv : ∀ s a s', Inv s → ¬ Goal s → step s a = some s' → Goal s' ∨ Inv s'
  falls : ∀ s a s', Inv s → ¬ Goal s → step s a = some s' → helps s (actor a) →
    Goal s' ∨ rank s' < rank s
  stays : ∀ s a s', Inv s → ¬ Goal s → step s a = some s' → Goal s' ∨ rank s' < rank s ∨
    rank s' = rank s ∧ ∀ x, helps s x → x ≠ actor a → helps s' x

namespace Helps

variable [Preorder ρ] [WellFoundedLT ρ] {step : σ → α → Option σ} {actor : α → θ}
  {can : σ → θ → Prop} {Inv Goal : σ → Prop} {helps : σ → θ → Prop} {rank : σ → ρ}

/-- Every fair run gets there. -/
theorem reached (H : Helps step actor can Inv Goal helps rank) {s : Nat → σ}
    (F : FairRun step actor can s) (n : Nat) (hn : Inv (s n)) : ∃ m, n ≤ m ∧ Goal (s m) := by
  suffices h : ∀ r n, rank (s n) = r → Inv (s n) → ∃ m, n ≤ m ∧ Goal (s m) from h _ n rfl hn
  intro r
  induction r using WellFoundedLT.induction with
  | ind r ih =>
    intro n hr hn
    by_contra hno
    have hgoal : ∀ m, n ≤ m → ¬ Goal (s m) := fun m hm h => hno ⟨m, hm, h⟩
    have hinv : ∀ m, n ≤ m → Inv (s m) := by
      intro m hm
      induction m, hm using Nat.le_induction with
      | base => exact hn
      | succ m hm ihm =>
        rcases F.next m with h | ⟨a, h⟩
        · rw [h]
          exact ihm
        · exact (H.inv _ a _ ihm (hgoal m hm) h).resolve_left (hgoal _ (Nat.le_succ_of_le hm))
    -- a lower rank would lead to the goal
    have hrank : ∀ m, n ≤ m → ¬ rank (s m) < r := by
      intro m hm hlt
      obtain ⟨m', hm', h⟩ := ih _ hlt m rfl (hinv m hm)
      exact hgoal m' (Nat.le_trans hm hm') h
    obtain ⟨x, hx⟩ := H.someone _ hn (hgoal n (Nat.le_refl n))
    have hmove : ∀ m a, n ≤ m → rank (s m) = r → actor a = x → helps (s m) x →
        step (s m) a = some (s (m + 1)) → False := by
      intro m a hm hrm ha hh hs
      subst ha
      rcases H.falls _ a _ (hinv m hm) (hgoal m hm) hs hh with h | h
      · exact hgoal _ (Nat.le_succ_of_le hm) h
      · rw [hrm] at h
        exact hrank _ (Nat.le_succ_of_le hm) h
    have hstill : ∀ m, n ≤ m → rank (s m) = r ∧ helps (s m) x := by
      intro m hm
      induction m, hm using Nat.le_induction with
      | base => exact ⟨hr, hx⟩
      | succ m hm ihm =>
        rcases F.next m with h | ⟨a, h⟩
        · rw [h]
          exact ihm
        · rcases H.stays _ a _ (hinv m hm) (hgoal m hm) h with h' | h' | ⟨h', hkeep⟩
          · exact absurd h' (hgoal _ (Nat.le_succ_of_le hm))
          · rw [ihm.1] at h'
            exact absurd h' (hrank _ (Nat.le_succ_of_le hm))
          · refine ⟨h'.trans ihm.1, hkeep x ihm.2 ?_⟩
            intro hxa
            exact hmove m a hm ihm.1 hxa.symm ihm.2 h
    obtain ⟨m, a, hm, ha, hs⟩ := F.fair n x fun m hm =>
      H.can _ x (hinv m hm) (hgoal m hm) (hstill m hm).2
    exact hmove m a hm (hstill m hm).1 ha (hstill m hm).2 hs

/-- And there is a way there, if who can move has a step. -/
theorem reachable (H : Helps step actor can Inv Goal helps rank)
    (hcan : ∀ s x, Inv s → can s x → ∃ a s', actor a = x ∧ step s a = some s') {s : σ} (hs : Inv s) :
    ∃ as s', runs step s as = some s' ∧ Goal s' := by
  suffices h : ∀ r s, rank s = r → Inv s → ∃ as s', runs step s as = some s' ∧ Goal s' from
    h _ s rfl hs
  intro r
  induction r using WellFoundedLT.induction with
  | ind r ih =>
    intro s hr hs
    by_cases hg : Goal s
    · exact ⟨[], s, rfl, hg⟩
    · obtain ⟨x, hx⟩ := H.someone s hs hg
      obtain ⟨a, s', rfl, hstep⟩ := hcan s x hs (H.can s x hs hg hx)
      rcases H.falls s a s' hs hg hstep hx with h | h
      · exact ⟨[a], s', runs_cons.mpr ⟨s', hstep, rfl⟩, h⟩
      · rcases H.inv s a s' hs hg hstep with h' | h'
        · exact ⟨[a], s', runs_cons.mpr ⟨s', hstep, rfl⟩, h'⟩
        · obtain ⟨as, t, ht, hgt⟩ := ih _ (hr ▸ h) s' rfl h'
          exact ⟨a :: as, t, runs_cons.mpr ⟨s', hstep, ht⟩, hgt⟩

end Helps

end OsKernel.Lib
