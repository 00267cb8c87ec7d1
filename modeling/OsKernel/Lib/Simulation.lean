import OsKernel.Lib.Prog

/-!
# Programs that do the same, and programs that keep something

`Sim R G E x y` compares programs over different states. From states that `R` relates, where `x`
returns `y` returns the same, and `R` relates the states again, or `y` stops for a reason of its own,
in `E`. Where `x` stops so does `y`, but nothing is said if `x` gives up, which is to stop for a reason in
`G`.

`Keeps I E y` is about one program: `I` is kept, and a stop has a reason in `E`. `Alike R x` is about
two runs of one program: from states that `R` relates they end alike, and `R` relates the states
again. The rules follow the text of the programs, like those of `wp`.
-/

set_option autoImplicit false

namespace OsKernel.Lib.Prog

variable {ε δ σ τ α β : Type} {R : τ → σ → Prop} {G : ε → Prop} {E : δ → Prop}

/-! ## Programs that do the same -/

def Sim (R : τ → σ → Prop) (G : ε → Prop) (E : δ → Prop) (x : Prog ε σ α) (y : Prog δ τ α) : Prop :=
  ∀ s t, R t s → wp x (fun a s' => wp y (fun b t' => b = a ∧ R t' s') (fun e _ => E e) t)
    (fun l _ => G l ∨ wp y (fun _ _ => False) (fun e _ => E e) t) s

namespace Sim

variable {x : Prog ε σ β} {y : Prog δ τ β}

/-- A guarantee of `x`, where it does not give up, is one of `y`. -/
theorem transfer (h : Sim R G E x y) {s : σ} {t : τ} (hst : R t s) {Q : β → σ → Prop}
    {F : ε → σ → Prop} (hx : wp x Q F s) (hf : ∀ l s', F l s' → ¬G l) :
    wp y (fun b t' => ∃ s', Q b s' ∧ R t' s') (fun e _ => E e) t := by
  have hsim := h s t hst
  unfold wp at hsim hx
  cases hrun : x s with
  | ok a s' =>
    rw [hrun] at hsim hx
    refine wp_mono hsim (fun b t' hpost => ?_) fun _ _ he => he
    obtain ⟨rfl, hst'⟩ := hpost
    exact ⟨s', hx, hst'⟩
  | error l s' =>
    rw [hrun] at hsim hx
    exact wp_mono (hsim.resolve_left (hf l s' hx)) (fun _ _ hno => hno.elim) fun _ _ he => he

theorem pure (a : α) : Sim R G E (Pure.pure a : Prog ε σ α) (Pure.pure a) :=
  fun _ _ hst => ⟨rfl, hst⟩

theorem throw {l : ε} {e : δ} (he : E e) :
    Sim R G E (MonadExcept.throw l : Prog ε σ α) (MonadExcept.throw e) :=
  fun _ _ _ => .inr he

theorem giveUp {l : ε} (hl : G l) (y : Prog δ τ α) :
    Sim R G E (MonadExcept.throw l : Prog ε σ α) y :=
  fun _ _ _ => .inl hl

theorem bind {f : β → Prog ε σ α} {g : β → Prog δ τ α} (h : Sim R G E x y)
    (hf : ∀ b, Sim R G E (f b) (g b)) : Sim R G E (x >>= f) (y >>= g) := by
  intro s t hst
  rw [wp_bind]
  refine wp_mono (h s t hst) (fun b s₁ hy => ?_) fun l s₁ hl => ?_
  · cases hrun : y t with
    | ok b' t₁ =>
      obtain ⟨rfl, hst₁⟩ := wp_ok hy hrun
      refine wp_mono (hf b' s₁ t₁ hst₁) (fun a s' hpost => ?_) fun l s' hpost => ?_
      · rw [wp_bind]
        unfold wp at hpost ⊢
        rw [hrun]
        exact hpost
      · refine hpost.imp_right fun hpost => ?_
        rw [wp_bind]
        unfold wp at hpost ⊢
        rw [hrun]
        exact hpost
    | error e t₁ =>
      -- `y` has stopped where `x` has not: whatever `f` does, `y >>= g` has stopped
      have he := wp_error hy hrun
      have hstop : ∀ Q : α → τ → Prop, wp (y >>= g) Q (fun e _ => E e) t := fun Q => by
        rw [wp_bind]
        unfold wp
        rw [hrun]
        exact he
      exact wp_of_forall (fun _ _ => hstop _) fun _ _ => .inr (hstop _)
  · refine hl.imp_right fun hl => ?_
    rw [wp_bind]
    exact wp_mono hl (fun _ _ hno => hno.elim) fun _ _ he => he

theorem forI {n : Nat} {x : Nat → Prog ε σ Unit} {y : Nat → Prog δ τ Unit}
    (h : ∀ i, i < n → Sim R G E (x i) (y i)) : Sim R G E (Prog.forI n x) (Prog.forI n y) := by
  induction n with
  | zero =>
    rw [forI_zero, forI_zero]
    exact pure ()
  | succ n ih =>
    rw [forI_succ, forI_succ]
    exact bind (ih fun i hi => h i (Nat.lt_succ_of_lt hi)) fun _ => h n (Nat.lt_succ_self n)

theorem foldI {n : Nat} {a : α} {x : Nat → α → Prog ε σ α} {y : Nat → α → Prog δ τ α}
    (h : ∀ i b, Sim R G E (x i b) (y i b)) : Sim R G E (Prog.foldI n a x) (Prog.foldI n a y) := by
  induction n with
  | zero =>
    rw [foldI_zero, foldI_zero]
    exact pure a
  | succ n ih =>
    rw [foldI_succ, foldI_succ]
    exact bind ih fun b => h n b

end Sim

/-! ## Programs that keep something -/

/-- From where `I` holds, `x` returns to where it holds, or stops with a reason of `E`. -/
def Keeps (I : τ → Prop) (E : δ → Prop) (y : Prog δ τ α) : Prop :=
  ∀ t, I t → wp y (fun _ => I) (fun e _ => E e) t

namespace Keeps

variable {I : τ → Prop}

theorem pure (a : α) : Keeps I E (Pure.pure a : Prog δ τ α) := fun _ h => h

theorem throw {e : δ} (he : E e) : Keeps I E (MonadExcept.throw e : Prog δ τ α) := fun _ _ => he

theorem bind {y : Prog δ τ β} {g : β → Prog δ τ α} (h : Keeps I E y) (hg : ∀ b, Keeps I E (g b)) :
    Keeps I E (y >>= g) :=
  fun t ht => wp_seq (h t ht) fun b t' ht' => hg b t' ht'

theorem forI {n : Nat} {y : Nat → Prog δ τ Unit} (h : ∀ i, i < n → Keeps I E (y i)) :
    Keeps I E (Prog.forI n y) :=
  fun _ ht => wp_forI (fun i hi t' ht' => h i hi t' ht') ht

theorem foldI {n : Nat} {y : Nat → α → Prog δ τ α} {a : α} (h : ∀ i b, Keeps I E (y i b)) :
    Keeps I E (Prog.foldI n a y) :=
  fun _ ht => wp_foldI (I := fun _ _ => I) (fun i _ b t' ht' => h i b t' ht') ht

end Keeps

/-! ## Two runs of one program -/

/-- Both runs return the same, or both stop for the same reason, and `R` relates where they end. -/
def SameEnd (R : σ → σ → Prop) : EStateM.Result ε σ α → EStateM.Result ε σ α → Prop
  | .ok a s, .ok b t => b = a ∧ R s t
  | .error e s, .error e' t => e' = e ∧ R s t
  | _, _ => False

/-- What `x` does is the same from states that `R` relates. -/
def Alike (R : σ → σ → Prop) (x : Prog ε σ α) : Prop :=
  ∀ s t, R s t → SameEnd R (x s) (x t)

namespace Alike

variable {R : σ → σ → Prop} {x : Prog ε σ β}

/-- Where one run returns, so does the other. -/
theorem ok (h : Alike R x) {s t s' : σ} {a : β} (hst : R s t) (hx : x s = .ok a s') :
    ∃ t', x t = .ok a t' ∧ R s' t' := by
  have hend := h s t hst
  rw [hx] at hend
  cases ht : x t with
  | ok b t' =>
    rw [ht] at hend
    obtain ⟨rfl, hst'⟩ := hend
    exact ⟨t', rfl, hst'⟩
  | error e t' =>
    rw [ht] at hend
    exact hend.elim

/-- Where one run stops, so does the other. -/
theorem error (h : Alike R x) {s t s' : σ} {e : ε} (hst : R s t) (hx : x s = .error e s') :
    ∃ t', x t = .error e t' ∧ R s' t' := by
  have hend := h s t hst
  rw [hx] at hend
  cases ht : x t with
  | ok b t' =>
    rw [ht] at hend
    exact hend.elim
  | error e' t' =>
    rw [ht] at hend
    obtain ⟨rfl, hst'⟩ := hend
    exact ⟨t', rfl, hst'⟩

theorem pure (a : α) : Alike R (Pure.pure a : Prog ε σ α) := fun _ _ hst => ⟨rfl, hst⟩

theorem throw (e : ε) : Alike R (MonadExcept.throw e : Prog ε σ α) := fun _ _ hst => ⟨rfl, hst⟩

theorem modify {f : σ → σ} (h : ∀ s t, R s t → R (f s) (f t)) :
    Alike R (modify f : Prog ε σ PUnit) :=
  fun s t hst => ⟨rfl, h s t hst⟩

theorem bind {f : β → Prog ε σ α} (h : Alike R x) (hf : ∀ b, Alike R (f b)) :
    Alike R (x >>= f) := by
  intro s t hst
  show SameEnd R (EStateM.bind x f s) (EStateM.bind x f t)
  unfold EStateM.bind
  cases hs : x s with
  | ok a s' =>
    obtain ⟨t', ht, hst'⟩ := h.ok hst hs
    rw [ht]
    exact hf a s' t' hst'
  | error e s' =>
    obtain ⟨t', ht, hst'⟩ := h.error hst hs
    rw [ht]
    exact ⟨rfl, hst'⟩

/-- The state is read, and what is read of it is the same in both. -/
theorem get {f : σ → Prog ε σ α} (h : ∀ s, Alike R (f s)) (hf : ∀ s t, R s t → f t = f s) :
    Alike R (get >>= f) := by
  intro s t hst
  show SameEnd R (f s s) (f t t)
  rw [hf s t hst]
  exact h s s t hst

theorem ite {c : Prop} [Decidable c] {x y : Prog ε σ α} (hx : Alike R x) (hy : Alike R y) :
    Alike R (if c then x else y) := by
  split
  · exact hx
  · exact hy

theorem forI {n : Nat} {x : Nat → Prog ε σ Unit} (h : ∀ i, Alike R (x i)) :
    Alike R (Prog.forI n x) := by
  induction n with
  | zero =>
    rw [forI_zero]
    exact pure ()
  | succ n ih =>
    rw [forI_succ]
    exact bind ih fun _ => h n

theorem foldI {n : Nat} {a : α} {x : Nat → α → Prog ε σ α} (h : ∀ i b, Alike R (x i b)) :
    Alike R (Prog.foldI n a x) := by
  induction n with
  | zero =>
    rw [foldI_zero]
    exact pure a
  | succ n ih =>
    rw [foldI_succ]
    exact bind ih fun b => h n b

end Alike

end OsKernel.Lib.Prog
