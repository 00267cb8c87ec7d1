import OsKernel.Vmm.Shape

/-!
# A machine that keeps a space

`Sound κ b s S n a`: the allocator's counters are the counts of `S`, `S` has its shape, and
the kernel's map is in memory. Whether memory also holds the entries of `S` is a separate
statement (`Agrees`), because several operations give a reference back before they overwrite
the entry that held it: in between, one entry in memory is stale.

`n` and `a` are those of the allocator's own invariant: there are at least `n` frames to hand
out, and `a` names the tables of counters that frames pin down. Both are carried along without
being looked at, so that the results about one operation can be put together: one that needs
four frames asks for `n` of at least 4 and leaves what is left.

The rules for the allocator's operations are restated here in terms of the moves, and the
proofs about `vmm.cc` use these and no others. `alloc_frame` is `give` of a frame that nobody
referred to; `incref` is `give`, `decref` is `take`. The allocator's file has them in terms of
counts, for any user, and knows nothing of tables.

`decref` of a page table is the only one with depth. If it was the last reference the
destructor runs, and that is a loop with a `decref` for each entry. `kill` and `bury` are the
beginning and the end of it, and between the two the table is `dying`: it is named by nobody,
and what it names is still counted. There the induction is on the entry that the loop has
reached. It is not on the depth, as a page is not destroyed into anything: the graph has two
levels below a process, and both are written out.
-/

set_option autoImplicit false

namespace OsKernel.Vmm

open Lib Lib.Prog K PhysMem

theorem KernelMem.kept {κ : KernelMap} {s s' : Machine} {H : Word → Prop} (h : KernelMem s κ)
    (k : Kept H s s') (hH : ∀ p ∈ κ.frames, H p) : KernelMem s' κ where
  kpd := k.regs.kpd.trans h.kpd
  pde i hi := by
    rw [k.mem _ (hH _ (Finset.mem_union_left _ κ.kpdRaw))]
    exact h.pde i hi
  pte i j hi hj hne := by
    rw [k.mem _ (hH _ (κ.tableIn i hne))]
    exact h.pte i j hi hj hne

structure Sound (κ : KernelMap) (b : Prop) (s : Machine) (S : Space) (n : Nat)
    (a : Word → Word → Prop) : Prop where
  acc : Accounts s (S.own κ) n a
  shape : Shape κ b S
  kernel : KernelMem s κ
  anchor : ∀ x t, a x t → x ∈ κ.counted

/-- Memory holds the entries of `S`. -/
def Agrees (s : Machine) (S : Space) : Prop :=
  ∀ x ∈ S.nodes, ∀ i, i < 1024 → s.mem x i = S.ent x i

variable {κ : KernelMap} {b : Prop} {s : Machine} {S : Space} {n : Nat}
  {a : Word → Word → Prop}

theorem Shape.anchored (H : Shape κ b S) (ha : ∀ x t, a x t → x ∈ κ.counted) :
    Accounts.Anchored (S.own κ) a := by
  intro x t hx
  have hex := H.kernelCounted x (ha x t hx)
  have hc : S.count x = S.names x + (S.extra x - 1) + 1 := by
    unfold Space.count
    omega
  rw [H.own_counted hc]
  rfl

theorem Space.held_of_take {p q : Word} (hp : 0 < S.extra p) (hq : Held ((S.take p).own κ) q) :
    Held (S.own κ) q := by
  rw [Space.held_iff] at hq ⊢
  refine hq.imp id (Or.imp id fun hc => ?_)
  have := Space.count_take hp q
  omega

namespace Sound

theorem weaken (h : Sound κ b s S n a) {m : Nat} (hm : m ≤ n) : Sound κ b s S m a :=
  { h with acc := h.acc.weaken hm }

theorem held_aligned (h : Sound κ b s S n a) {p : Word} (hp : Held (S.own κ) p) : Aligned p :=
  h.acc.aligned hp

/-- A store into a frame that is held and not the kernel's. -/
theorem store (h : Sound κ b s S n a) {p : Word} (hp : Held (S.own κ) p) (hk : p ∉ κ.frames)
    (m : Nat → Word) :
    Sound κ b { s with mem := Function.update s.mem p m } S n a where
  acc := h.acc.store hp m
  shape := h.shape
  kernel := h.kernel.kept ((Kept.refl (· ∈ κ.frames) s).store hk m) fun _ hq => hq
  anchor := h.anchor

theorem regs (h : Sound κ b s S n a) (cr3 : Word) (tlb : List TlbEntry) :
    Sound κ b { s with cr3 := cr3, tlb := tlb } S n a where
  acc := h.acc.regs s.kpd cr3 tlb
  shape := h.shape
  kernel := ⟨h.kernel.kpd, h.kernel.pde, h.kernel.pte⟩
  anchor := h.anchor

/-- A move that changes nobody's count. -/
theorem move (h : Sound κ b s S n a) {S' : Space} (hc : ∀ p, S'.count p = S.count p)
    (hd : S'.dying = S.dying) (hs : Shape κ b S') : Sound κ b s S' n a :=
  { h with
    acc := Space.own_congr (κ := κ) hc hd ▸ h.acc
    shape := hs }

/-! ## The allocator's operations -/

theorem allocFrame_spec (h : Sound κ b s S n a) :
    wp allocFrame (fun p s' => S.own κ p = .none ∧ s'.mem p = (fun _ => 0#32) ∧
        Sound κ b s' (S.give p) (n - 2) a ∧ Kept (Held (S.own κ)) s s')
      (fun e _ => e = .noFrames ∧ n < 2) s := by
  refine wp_mono h.acc.allocFrame_spec (fun p s' ⟨hfree, hzero, A, k⟩ => ?_) (fun _ _ he => he)
  obtain ⟨hr, hd, hc⟩ := Space.own_eq_none_iff.mp hfree
  obtain ⟨hn, -⟩ := h.shape.unnamed_of_free hfree
  have hs : Shape κ b (S.give p) := h.shape.give hr hd fun x hx i hi hp hf => by
    have := Space.names_pos_of_ent hx hi hp
    rw [hf] at this
    omega
  have hown : (S.give p).own κ = Function.update (S.own κ) p (.counted 0) := by
    refine Space.own_update (fun q hq => ?_) (fun _ _ => Iff.rfl) ?_
    · rw [Space.count_give, if_neg hq, Nat.add_zero]
    · refine hs.own_counted ?_
      rw [Space.count_give, if_pos rfl, hc]
  refine ⟨hfree, hzero, ⟨hown ▸ A, hs, ?_, h.anchor⟩, k⟩
  exact h.kernel.kept k fun q hq => h.shape.kernel_held hq

/-- `incref` of a frame that is named by read-only entries only. -/
theorem incref_spec (h : Sound κ b s S n a) {p : Word} (hp : 0 < S.count p)
    (hro : ∀ x ∈ S.nodes, ∀ i, i < 1024 → priv (S.ent x i) = true → frame (S.ent x i) = p →
      writable (S.ent x i) = false) :
    wp (incref p) (fun _ s' => Sound κ b s' (S.give p) n a ∧ Kept (Held (S.own κ)) s s')
      (fun e _ => e = .refOverflow) s := by
  obtain ⟨k, hk⟩ : ∃ k, S.count p = k + 1 := ⟨S.count p - 1, by omega⟩
  have hs := h.shape.give (h.shape.not_raw hp) (h.shape.not_dying hp) hro
  refine wp_mono (h.acc.incref_spec (h.shape.own_counted hk)) (fun _ s' ⟨A, k'⟩ => ?_)
    (fun _ _ he => he.1)
  have hown : (S.give p).own κ = Function.update (S.own κ) p (.counted (k + 1)) := by
    refine Space.own_update (fun q hq => ?_) (fun _ _ => Iff.rfl) ?_
    · rw [Space.count_give, if_neg hq, Nat.add_zero]
    · refine hs.own_counted ?_
      rw [Space.count_give, if_pos rfl, hk]
  exact ⟨⟨hown ▸ A, hs, h.kernel.kept k' fun q hq => h.shape.kernel_held hq, h.anchor⟩, k'⟩

/-- `decref` of a page, or of a directory that is no longer one. -/
theorem decref_destroyPg_spec (h : Sound κ b s S n a) {p : Word} (hp : 0 < S.extra p)
    (ht : p ∉ S.tables) (hk : p ∉ κ.counted) :
    wp (decref p destroyPg) (fun _ s' => Sound κ b s' (S.take p) n a ∧
        Kept (Held ((S.take p).own κ)) s s') (fun _ _ => False) s := by
  have hpos : 0 < S.count p := by unfold Space.count; omega
  have hs := h.shape.take hp (fun hm => absurd hm ht) hk
  have hct := Space.count_take hp
  have hother : ∀ q, q ≠ p → (S.take p).count q = S.count q := fun q hq => by
    have := hct q
    rw [if_neg hq] at this
    exact this
  have hself := hct p
  rw [if_pos rfl] at hself
  have hheld : ∀ q, Held ((S.take p).own κ) q → Held (S.own κ) q := fun q =>
    Space.held_of_take hp
  cases hk : S.count p - 1 with
  | zero =>
    have h1 : S.count p = 0 + 1 := by omega
    have hown : (S.take p).own κ = Function.update (S.own κ) p .none :=
      Space.own_update hother (fun _ _ => Iff.rfl) (Space.own_eq_none_iff.mpr
        ⟨h.shape.not_raw hpos, h.shape.not_dying hpos, by omega⟩)
    refine h.acc.decref_last_spec (h.shape.own_counted h1) (fun s₁ A₁ k₁ => ?_)
    unfold destroyPg
    rw [wp_pure]
    have hnone : Function.update (Function.update (S.own κ) p Own.dying) p Own.none =
        (S.take p).own κ := by rw [Function.update_idem, hown]
    refine wp_mono (A₁.release_spec (Function.update_self ..)
      (hnone ▸ hs.anchored h.anchor)) (fun _ s₂ ⟨A₂, k₂⟩ => ?_) (fun _ _ he => he)
    rw [hnone] at A₂ k₂
    have k' := (k₁.weaken hheld).trans k₂
    exact ⟨⟨A₂, hs, h.kernel.kept k' fun q hq => hs.kernel_held hq, h.anchor⟩, k'⟩
  | succ k =>
    have h2 : S.count p = k + 1 + 1 := by omega
    have hown : (S.take p).own κ = Function.update (S.own κ) p (.counted k) :=
      Space.own_update hother (fun _ _ => Iff.rfl) (hs.own_counted (by omega))
    refine wp_mono (h.acc.decref_more_spec destroyPg (h.shape.own_counted h2))
      (fun _ s' ⟨A, k'⟩ => ?_) (fun _ _ he => he)
    have k'' := k'.weaken hheld
    exact ⟨⟨hown ▸ A, hs, h.kernel.kept k'' fun q hq => hs.kernel_held hq, h.anchor⟩, k''⟩

end Sound

/-! ## `decref` of a page table

`destroy_pt` is a callback of `decref`, and runs while its table still counts. The table dies
first, and its pages then go one reference after the other (`dyingAt`); a page whose last
reference this was runs a callback of its own, one level deeper. There are no further levels. -/

/-- The table `t` while `destroy_pt` is at its entry `i`. -/
def Space.dyingAt (S : Space) (t : Word) (i : Nat) : Space :=
  { S with
    tables := S.tables.erase t
    extra := fun q => Function.update S.extra t 0 q + RefGraph.hitsFrom i 1024 (S.ref t) q
    dying := insert t S.dying }

/-- A reference to the table `t` that the running operation holds is given up; the table goes if
it was the last. -/
def Space.dropTable (S : Space) (t : Word) : Space :=
  if S.count t = 1 then
    { S with tables := S.tables.erase t, extra := Function.update S.extra t 0 }
  else S.take t

section dropTable

variable {t : Word}

@[simp] theorem Space.dropTable_dirs : (S.dropTable t).dirs = S.dirs := by
  unfold dropTable
  split <;> rfl

@[simp] theorem Space.dropTable_ent : (S.dropTable t).ent = S.ent := by
  unfold dropTable
  split <;> rfl

@[simp] theorem Space.dropTable_home : (S.dropTable t).home = S.home := by
  unfold dropTable
  split <;> rfl

@[simp] theorem Space.dropTable_dying : (S.dropTable t).dying = S.dying := by
  unfold dropTable
  split <;> rfl

theorem Space.dropTable_tables : (S.dropTable t).tables ⊆ S.tables := by
  unfold dropTable
  split
  · exact Finset.erase_subset _ _
  · exact Finset.Subset.refl _

theorem Space.mem_dropTable_of_ne {u : Word} (hu : u ∈ S.tables) (hne : u ≠ t) :
    u ∈ (S.dropTable t).tables := by
  unfold dropTable
  split
  · exact Finset.mem_erase.mpr ⟨hne, hu⟩
  · exact hu

theorem Space.dropTable_extra :
    (S.dropTable t).extra = Function.update S.extra t (S.extra t - 1) := by
  unfold dropTable
  split
  · rename_i h1
    have : S.extra t - 1 = 0 := by
      unfold count at h1
      omega
    rw [this]
  · rfl

end dropTable

theorem Space.kill_eq_dyingAt (t : Word) : S.kill t = S.dyingAt t 0 := by
  unfold kill dyingAt
  simp only [RefGraph.hits_eq_hitsFrom]

/-- `destroy_pt` gives back one reference for each private entry. -/
theorem Space.dyingAt_succ (S : Space) (t : Word) {i : Nat} (hi : i < 1024) :
    S.dyingAt t (i + 1) = match S.ref t i with
      | some p => (S.dyingAt t i).take p
      | none => S.dyingAt t i := by
  have hstep := fun q => RefGraph.hitsFrom_step hi (S.ref t) q
  cases hr : S.ref t i with
  | none =>
    unfold dyingAt
    congr 1
    funext q
    have := hstep q
    rw [hr, if_neg (by simp), Nat.add_zero] at this
    rw [this]
  | some p =>
    have hex : ∀ k q, (S.dyingAt t k).extra q =
        Function.update S.extra t 0 q + RefGraph.hitsFrom k 1024 (S.ref t) q := fun _ _ => rfl
    have hext : (S.dyingAt t (i + 1)).extra = ((S.dyingAt t i).take p).extra := by
      funext q
      have := hstep q
      rw [hr] at this
      by_cases hqp : q = p
      · rw [hqp, take_extra_self, hex, hex]
        rw [hqp, if_pos rfl] at this
        omega
      · rw [take_extra_ne hqp, hex, hex]
        rw [if_neg (by simpa using fun h : p = q => hqp h.symm)] at this
        omega
    show { S.dyingAt t i with extra := (S.dyingAt t (i + 1)).extra } =
      { S.dyingAt t i with extra := ((S.dyingAt t i).take p).extra }
    rw [hext]

theorem Sound.destroyPt_spec {t : Word} (hS : Shape κ b S) (ht : t ∈ S.tables)
    (h : Sound κ b s (S.dyingAt t 0) n a) (hm : ∀ i, i < 1024 → s.mem t i = S.ent t i) :
    wp (destroyPt t) (fun _ s' => Sound κ b s' (S.dyingAt t 1024) n a ∧
        Kept (Held ((S.dyingAt t 1024).own κ)) s s') (fun _ _ => False) s := by
  unfold destroyPt
  refine wp_forI (n := PAGES_PER_TABLE) (I := fun i s' => Sound κ b s' (S.dyingAt t i) n a ∧
    Kept (Held ((S.dyingAt t i).own κ)) s s') (fun i (hi : i < 1024) s' hinv => ?_)
    ⟨h, Kept.refl _ s⟩
  obtain ⟨h', k'⟩ := hinv
  have hdy : Held ((S.dyingAt t i).own κ) t :=
    Space.held_iff.mpr (Or.inr (Or.inl (Finset.mem_insert_self t S.dying)))
  have hload : s'.mem t i = S.ent t i := by rw [k'.mem t hdy, hm i hi]
  have hsucc := S.dyingAt_succ t hi
  simp only [wp_bind, wp_load, wp_ite, wp_pure, hload]
  by_cases hp : priv (S.ent t i) = true
  · rw [if_pos (and_NG_P.mpr hp)]
    have hr : S.ref t i = some (frame (S.ent t i)) := refOf_eq_some.mpr ⟨hp, rfl⟩
    have E := hS.tableEntry t ht i hi
    have hex : 0 < (S.dyingAt t i).extra (frame (S.ent t i)) := by
      have hstep := RefGraph.hitsFrom_step hi (S.ref t) (frame (S.ent t i))
      rw [hr, if_pos rfl] at hstep
      show 0 < Function.update S.extra t 0 _ + RefGraph.hitsFrom i 1024 (S.ref t) _
      omega
    rw [hr] at hsucc
    rw [hsucc]
    refine wp_mono (h'.decref_destroyPg_spec hex (fun hm => E.page hp ?_) (fun hm => E.notKernel hp ?_))
      (fun _ s'' hpost => ?_) (fun _ _ he => he)
    · exact Space.mem_nodes.mpr (Or.inr (Finset.mem_of_mem_erase hm))
    · exact Finset.mem_union_right _ hm
    · obtain ⟨h'', k''⟩ := hpost
      exact ⟨h'', (k'.weaken fun q hq => Space.held_of_take hex hq).trans k''⟩
  · rw [if_neg (fun hc => hp (and_NG_P.mp hc))]
    have hr : S.ref t i = none := refOf_eq_none.mpr (by simpa using hp)
    rw [hr] at hsucc
    rw [hsucc]
    exact ⟨h', k'⟩

theorem Space.bury_dyingAt {t : Word} (h1 : S.count t = 1) (hd : t ∉ S.dying) :
    (S.dyingAt t 1024).bury t = S.dropTable t := by
  have hex : (fun q => Function.update S.extra t 0 q +
      RefGraph.hitsFrom 1024 1024 (S.ref t) q) = Function.update S.extra t 0 := by
    funext q
    rw [RefGraph.hitsFrom_self, Nat.add_zero]
  unfold dropTable
  rw [if_pos h1]
  unfold bury dyingAt
  simp only [hex, Finset.erase_insert hd]

theorem Space.count_dropTable_le {t : Word} (ht : t ∈ S.tables) (htd : t ∉ S.dirs)
    (hp : 0 < S.extra t) (q : Word) : (S.dropTable t).count q ≤ S.count q := by
  unfold dropTable
  split
  · rename_i h1
    have hn : S.names t = 0 := by
      unfold Space.count at h1
      omega
    have hkill := Space.count_kill ht htd hn q
    have hle : Space.count { S with
        tables := S.tables.erase t, extra := Function.update S.extra t 0 } q ≤
        (S.kill t).count q := Nat.add_le_add_left (Nat.le_add_right _ _) _
    rw [hkill] at hle
    refine hle.trans ?_
    split <;> omega
  · have := Space.count_take hp q
    omega

/-- `decref` of the last reference to a table. -/
theorem Sound.decref_destroyPt_last (h : Sound κ b s S n a) {t : Word} (ht : t ∈ S.tables)
    (hp : 0 < S.extra t) (h1 : S.count t = 1) (hm : ∀ i, i < 1024 → s.mem t i = S.ent t i) :
    wp (decref t destroyPt) (fun _ s' => Sound κ b s' (S.dropTable t) n a ∧
        Kept (Held ((S.dropTable t).own κ)) s s') (fun _ _ => False) s := by
  have htn : t ∈ S.nodes := Space.mem_nodes.mpr (Or.inr ht)
  have htd : t ∉ S.dirs := fun hd => h.shape.disj t hd ht
  have hpos : 0 < S.count t := h.shape.count_node htn
  have hraw := h.shape.not_raw hpos
  have hdy : t ∈ (S.dyingAt t 1024).dying := Finset.mem_insert_self t S.dying
  have hn : S.names t = 0 := by
    unfold Space.count at h1
    omega
  have hown : (S.kill t).own κ = Function.update (S.own κ) t .dying := by
    refine Space.own_update (fun q hq => ?_) (fun q hq => ?_)
      (Space.own_eq_dying hraw (Finset.mem_insert_self t S.dying))
    · rw [Space.count_kill ht htd hn, if_neg hq]
    · rw [Space.kill_dying, Finset.mem_insert, or_iff_right hq]
  refine h.acc.decref_last_spec (h.shape.own_counted h1) (fun s₁ A₁ k₁ => ?_)
  have hS₁ : Sound κ b s₁ (S.dyingAt t 0) n a := by
    rw [← Space.kill_eq_dyingAt]
    exact ⟨hown ▸ A₁, h.shape.kill ht hn,
      h.kernel.kept k₁ fun q hq => h.shape.kernel_held hq, h.anchor⟩
  refine wp_mono (Sound.destroyPt_spec h.shape ht hS₁ fun i hi => ?_)
    (fun _ s₂ ⟨h₂, k₂⟩ => ?_) (fun _ _ he => he.elim)
  · rw [k₁.mem t (h.shape.held_node htn)]
    exact hm i hi
  -- what is left of `t` is given back
  have hlast := Space.bury_dyingAt h1 (h.shape.not_dying hpos)
  have hs₃ : Shape κ b (S.dropTable t) := hlast ▸ h₂.shape.bury t
  have hown₃ : (S.dropTable t).own κ = Function.update ((S.dyingAt t 1024).own κ) t .none := by
    rw [← hlast]
    refine Space.own_update (fun _ _ => rfl) (fun q hq => ?_)
      (Space.own_eq_none_iff.mpr ⟨hraw, ?_, h₂.shape.still t (Or.inr hdy)⟩)
    · rw [Space.bury_dying, Finset.mem_erase, and_iff_right hq]
    · exact Finset.notMem_erase t _
  refine wp_mono (h₂.acc.release_spec (Space.own_eq_dying hraw hdy)
    (hown₃ ▸ hs₃.anchored h.anchor)) (fun _ s₃ ⟨A₃, k₃⟩ => ?_) (fun _ _ he => he)
  rw [← hown₃] at A₃ k₃
  have hheld₂ : ∀ q, Held ((S.dropTable t).own κ) q → Held ((S.dyingAt t 1024).own κ) q := by
    intro q hq hn
    refine hq ?_
    rw [hown₃]
    by_cases hqt : q = t
    · rw [hqt, Function.update_self]
    · rw [Function.update_of_ne hqt]
      exact hn
  have hheld₁ : ∀ q, Held ((S.dropTable t).own κ) q → Held (S.own κ) q := by
    intro q hq
    rw [Space.held_iff] at hq ⊢
    rw [Space.dropTable_dying] at hq
    exact hq.imp id (Or.imp id fun hc => hc.trans_le (Space.count_dropTable_le ht htd hp q))
  have k' := (k₁.weaken hheld₁).trans ((k₂.weaken hheld₂).trans k₃)
  exact ⟨⟨A₃, hs₃, h.kernel.kept k' fun q hq => hs₃.kernel_held hq, h.anchor⟩, k'⟩

/-- `decref` of a table. -/
theorem Sound.decref_destroyPt_spec (h : Sound κ b s S n a) {t : Word} (ht : t ∈ S.tables)
    (hp : 0 < S.extra t) (hm : ∀ i, i < 1024 → s.mem t i = S.ent t i) :
    wp (decref t destroyPt) (fun _ s' => Sound κ b s' (S.dropTable t) n a ∧
        Kept (Held ((S.dropTable t).own κ)) s s') (fun _ _ => False) s := by
  by_cases h1 : S.count t = 1
  · exact h.decref_destroyPt_last ht hp h1 hm
  have htn : t ∈ S.nodes := Space.mem_nodes.mpr (Or.inr ht)
  have hpos : 0 < S.count t := h.shape.count_node htn
  have hkt : t ∉ κ.counted := fun hk => h.shape.kernelNodes t htn (Finset.mem_union_right _ hk)
  have hdrop : S.dropTable t = S.take t := by
    unfold Space.dropTable
    rw [if_neg h1]
  have hs := h.shape.take hp (fun _ => by omega) hkt
  have hct := Space.count_take hp
  obtain ⟨k, hk⟩ : ∃ k, S.count t = k + 1 + 1 := ⟨S.count t - 2, by omega⟩
  have hown : (S.take t).own κ = Function.update (S.own κ) t (.counted k) := by
    refine Space.own_update (fun q hq => ?_) (fun _ _ => Iff.rfl) (hs.own_counted ?_)
    · have := hct q
      rw [if_neg hq] at this
      exact this
    · have := hct t
      rw [if_pos rfl] at this
      omega
  rw [hdrop]
  refine wp_mono (h.acc.decref_more_spec destroyPt (h.shape.own_counted hk))
    (fun _ s' ⟨A, k'⟩ => ?_) (fun _ _ he => he)
  have k'' := k'.weaken fun q hq => Space.held_of_take hp hq
  exact ⟨⟨hown ▸ A, hs, h.kernel.kept k'' fun q hq => hs.kernel_held hq, h.anchor⟩, k''⟩

end OsKernel.Vmm
