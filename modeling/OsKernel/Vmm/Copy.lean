import OsKernel.Vmm.Sound

/-!
# Copying tables and directories

`copy_pt` and `copy_pd` share what is read-only and copy what is not. They are only ever asked
to copy tables whose pages are all read-only, so that the branch which copies a page
(`copy_pg`) is never taken: `Sharable` is that condition, and the specs below show that it is
enough. It holds at fork because `write_protect` has run, and in `ownTable` because a
read-only directory entry has no writable page behind it.

`Sound.copyPt_spec` gives the new table to its caller as a node that nobody names, with its
reference in hand (`Space.withTable`). Both callers then store it into a directory, by
`Space.install`. While the loop runs, the space has the kernel's entries where it has not got
to yet (`upTo`), and the new frame in memory has zeros. That is why the loop's invariant is
`Sound` together with the words of the one frame, and not `Agrees`.

`copy_pd` itself is in `Vmm/Fork.lean`, since its invariant is about two directories.
-/

set_option autoImplicit false

namespace OsKernel.Vmm

open Lib Lib.Prog K PhysMem

variable {κ : KernelMap} {b : Prop} {s : Machine} {S : Space} {n : Nat}
  {a : Word → Word → Prop}

namespace Sound

/-! ## Moves that leave the counts alone -/

theorem put (h : Sound κ b s S n a) {x e : Word} {i : Nat} (hx : x ∈ S.nodes) (hi : i < 1024)
    (he : ∀ q, refOf e = some q → 0 < S.extra q ∨ S.ref x i = some q)
    (hdir : x ∈ S.dirs → DirEntry κ b S i e)
    (htab : x ∈ S.tables → TableEntry κ b S (S.home x) i e)
    (hw : x ∈ S.tables → priv e = true → writable e = true → ∀ d ∈ S.dirs, ∀ k, k < 1024 →
      priv (S.ent d k) = true → frame (S.ent d k) = x → writable (S.ent d k) = true)
    (hk : ∀ q ∈ κ.counted, refOf e ≠ some q) : Sound κ b s (S.put x i e) n a :=
  h.move (Space.count_put hx hi he) rfl (h.shape.put hx hi he hdir htab hw hk)

theorem addTable (h : Sound κ b s S n a) {t : Word} (i : Nat) (ht : t ∉ S.nodes)
    (hn : S.names t = 0) (he : 0 < S.extra t) (hk : t ∉ κ.frames) :
    Sound κ b s (S.addTable κ t i) n a :=
  h.move (Space.count_addTable ht) rfl (h.shape.addTable ht hn he hk)

theorem addDir (h : Sound κ b s S n a) {d : Word} (hd : d ∉ S.nodes) (hn : S.names d = 0)
    (he : 0 < S.extra d) (hk : d ∉ κ.frames) : Sound κ b s (S.addDir κ d) n a :=
  h.move (Space.count_addDir hd he) rfl (h.shape.addDir hd hn he hk)

theorem dropDir (h : Sound κ b s S n a) {d : Word} (hd : d ∈ S.dirs) :
    Sound κ b s (S.dropDir d) n a :=
  h.move (Space.count_dropDir hd (h.shape.disj d hd)) rfl (h.shape.dropDir hd)

end Sound

/-! ## `copy_pt`

A new table gets the entries of another one and a reference to each page. While the loop runs, the
new table has the entries copied so far and the kernel's after them (`upTo`): that is a table in
good shape at every moment, which the frame as it stands in memory, with zeros, is not yet. -/

/-- The entries `src` may be shared by one more table for slot `i`. -/
def Sharable (κ : KernelMap) (b : Prop) (S : Space) (i : Nat) (src : Nat → Word) : Prop :=
  ∀ j, j < 1024 → TableEntry κ b S i j (src j) ∧
    (priv (src j) = true → writable (src j) = false ∧
      ∃ x ∈ S.nodes, ∃ k, k < 1024 ∧ priv (S.ent x k) = true ∧ writable (S.ent x k) = false ∧
        frame (S.ent x k) = frame (src j))

/-- The frame `t` as a table for slot `i` with the entries `src`; the running operation holds the
reference to it. -/
def Space.withTable (S : Space) (t : Word) (i : Nat) (src : Nat → Word) : Space :=
  { S with
    tables := insert t S.tables
    ent := Function.update S.ent t src
    home := Function.update S.home t i
    extra := Function.update S.extra t (S.extra t + 1) }

section withTable

variable {t x : Word} {i : Nat} {src : Nat → Word}

@[simp] theorem Space.withTable_dirs : (S.withTable t i src).dirs = S.dirs := rfl
@[simp] theorem Space.withTable_tables : (S.withTable t i src).tables = insert t S.tables := rfl
@[simp] theorem Space.withTable_dying : (S.withTable t i src).dying = S.dying := rfl

theorem Space.withTable_ent_self : (S.withTable t i src).ent t = src := Function.update_self ..

theorem Space.withTable_ent_ne (h : x ≠ t) : (S.withTable t i src).ent x = S.ent x :=
  Function.update_of_ne h ..

theorem Space.withTable_home_self : (S.withTable t i src).home t = i := Function.update_self ..

theorem Space.withTable_nodes : (S.withTable t i src).nodes = insert t S.nodes := by
  ext z
  simp only [Space.mem_nodes, withTable_dirs, withTable_tables, Finset.mem_insert]
  tauto

theorem Space.count_le_withTable (i : Nat) (ht : t ∉ S.nodes) (src : Nat → Word) (q : Word) :
    S.count q ≤ (S.withTable t i src).count q := by
  have hold : ∀ y ∈ S.nodes, ∀ j, j < 1024 → (S.withTable t i src).ref y j = S.ref y j := by
    intro y hy j _
    unfold ref
    rw [withTable_ent_ne (by rintro rfl; exact ht hy)]
  have hn : (S.withTable t i src).names q =
      S.names q + RefGraph.hits 1024 ((S.withTable t i src).ref t) q := by
    unfold names
    rw [withTable_nodes, RefGraph.names_insert ht, withTable_dirs, RefGraph.names_congr hold]
  have hx : S.extra q ≤ (S.withTable t i src).extra q := by
    show _ ≤ Function.update S.extra t (S.extra t + 1) q
    by_cases hq : q = t
    · rw [hq, Function.update_self]
      omega
    · rw [Function.update_of_ne hq]
  unfold count
  omega

end withTable

/-- The first `k` entries of `src`, and the kernel's after them: the table while `copy_pt` is at
entry `k`. -/
def upTo (κ : KernelMap) (i : Nat) (src : Nat → Word) (k : Nat) : Nat → Word :=
  fun j => if j < k then src j else κ.pte i j

theorem upTo_zero (i : Nat) (src : Nat → Word) : upTo κ i src 0 = κ.pte i := by
  funext j
  rw [upTo, if_neg (Nat.not_lt_zero j)]

theorem upTo_succ (i : Nat) (src : Nat → Word) (k : Nat) :
    upTo κ i src (k + 1) = Function.update (upTo κ i src k) k (src k) := by
  funext j
  by_cases hj : j = k
  · rw [hj, Function.update_self, upTo, if_pos (Nat.lt_succ_self k)]
  · rw [Function.update_of_ne hj, upTo, upTo]
    by_cases hlt : j < k
    · rw [if_pos hlt, if_pos (Nat.lt_succ_of_lt hlt)]
    · rw [if_neg hlt, if_neg (by omega)]

theorem Space.withTable_zero (t : Word) (i : Nat) (src : Nat → Word) :
    S.withTable t i (upTo κ i src 0) = (S.give t).addTable κ t i := by
  rw [upTo_zero]
  rfl

/-- The same entries, other references in hand. -/
def Space.withExtra (S : Space) (x : Word → Nat) : Space := { S with extra := x }

theorem Space.withTable_ref_upTo (t : Word) (i : Nat) (src : Nat → Word) (k : Nat) (x : Word → Nat) :
    ((S.withTable t i (upTo κ i src k)).withExtra x).ref t k = none := by
  show refOf ((S.withTable t i (upTo κ i src k)).ent t k) = none
  rw [withTable_ent_self, refOf_eq_none, upTo, if_neg (Nat.lt_irrefl k)]
  exact κ.pte_priv i k

/-- One entry further. Only the entry moves; `x` is what the running operation has in hand when
it stores the entry. -/
theorem Space.withTable_next (t : Word) (i : Nat) (src : Nat → Word) (k : Nat) (x : Word → Nat)
    (hx : ∀ q, x q - (if refOf (src k) = some q then 1 else 0) = (S.withTable t i src).extra q) :
    S.withTable t i (upTo κ i src (k + 1)) =
      ((S.withTable t i (upTo κ i src k)).withExtra x).put t k (src k) := by
  have hent : (((S.withTable t i (upTo κ i src k)).withExtra x).put t k (src k)).ent =
      (S.withTable t i (upTo κ i src (k + 1))).ent := by
    funext y
    by_cases hy : y = t
    · rw [hy, withTable_ent_self, upTo_succ]
      funext j
      by_cases hj : j = k
      · rw [hj, put_ent_self, Function.update_self]
      · rw [put_ent_other hj, Function.update_of_ne hj]
        show (S.withTable t i (upTo κ i src k)).ent t j = _
        rw [withTable_ent_self]
    · rw [put_ent_ne hy, withTable_ent_ne hy]
      show (S.withTable t i (upTo κ i src k)).ent y = _
      rw [withTable_ent_ne hy]
  have hex : (((S.withTable t i (upTo κ i src k)).withExtra x).put t k (src k)).extra =
      (S.withTable t i src).extra := by
    funext q
    rw [put_extra, withTable_ref_upTo, ← hx q, if_neg (by simp), Nat.add_zero]
    rfl
  show _ = { S.withTable t i (upTo κ i src (k + 1)) with
    ent := (((S.withTable t i (upTo κ i src k)).withExtra x).put t k (src k)).ent
    extra := (((S.withTable t i (upTo κ i src k)).withExtra x).put t k (src k)).extra }
  rw [hent, hex]
  rfl

section step

variable {t : Word} {i k : Nat} {src : Nat → Word}

/-- What is named in `S` is not the new frame. -/
theorem Sharable.frame_ne (hsrc : Sharable κ b S i src) (hn : S.names t = 0) {j : Nat}
    (hj : j < 1024) (hp : priv (src j) = true) : frame (src j) ≠ t := by
  obtain ⟨-, x, hx, k, hk, hpx, -, hf⟩ := (hsrc j hj).2 hp
  have hpos := Space.names_pos_of_ent hx hk hpx
  rintro rfl
  rw [hf] at hpos
  omega

/-- An entry of `src` may stand in the new table. -/
theorem Sharable.entry (hsrc : Sharable κ b S i src) (hn : S.names t = 0) (hk : k < 1024)
    {S' : Space} (hS : S'.nodes = insert t S.nodes) : TableEntry κ b S' i k (src k) := by
  obtain ⟨E, hro⟩ := hsrc k hk
  refine { E with page := fun hp => ?_, single := fun hp hw => ?_ }
  · rw [hS, Finset.mem_insert, not_or]
    exact ⟨hsrc.frame_ne hn hk hp, E.page hp⟩
  · rw [(hro hp).1] at hw
    exact absurd hw (by simp)

/-- The next entry, in a space that holds the reference for it. -/
theorem Sound.withTable_step (hsrc : Sharable κ b S i src) (hn : S.names t = 0) (hk : k < 1024)
    (hnode : t ∉ S.nodes) {x : Word → Nat}
    (h : Sound κ b s ((S.withTable t i (upTo κ i src k)).withExtra x) n a)
    (hx : ∀ q, x q - (if refOf (src k) = some q then 1 else 0) = (S.withTable t i src).extra q)
    (hpos : ∀ q, refOf (src k) = some q → 0 < x q) :
    Sound κ b s (S.withTable t i (upTo κ i src (k + 1))) n a := by
  have htd : t ∉ S.dirs := fun hd => hnode (Space.mem_nodes.mpr (Or.inl hd))
  have hnodes : ((S.withTable t i (upTo κ i src k)).withExtra x).nodes = insert t S.nodes :=
    show (S.withTable t i (upTo κ i src k)).nodes = _ from Space.withTable_nodes
  have hhome : ((S.withTable t i (upTo κ i src k)).withExtra x).home t = i :=
    show (S.withTable t i (upTo κ i src k)).home t = i from Space.withTable_home_self
  have E := hsrc.entry hn hk hnodes
  rw [Space.withTable_next t i src k x hx]
  refine h.put (by rw [hnodes]; exact Finset.mem_insert_self _ _) hk
    (fun q hq => Or.inl (hpos q hq)) (fun hd => absurd hd htd) (fun _ => by rw [hhome]; exact E)
    (fun _ hp hw => ?_) (fun q hq hr => ?_)
  · rw [((hsrc k hk).2 hp).1] at hw
    exact absurd hw (by simp)
  · obtain ⟨hp, rfl⟩ := refOf_eq_some.mp hr
    exact E.notKernel hp (Finset.mem_union_right _ hq)

end step

/-- `copy_pt` gives a table with the same entries and takes a reference to each page. -/
theorem Sound.copyPt_spec (h : Sound κ b s S n a) {pt : Word} {i : Nat} {src : Nat → Word}
    (hpt : Held (S.own κ) pt) (hmem : ∀ j, j < 1024 → s.mem pt j = src j)
    (hsrc : Sharable κ b S i src) :
    wp (copyPt pt) (fun t s' => S.own κ t = .none ∧ (∀ j, j < 1024 → s'.mem t j = src j) ∧
        Sound κ b s' (S.withTable t i (upTo κ i src 1024)) (n - 2) a ∧ Kept (Held (S.own κ)) s s')
      (fun e _ => e = .noFrames ∧ n < 2 ∨ e = .refOverflow ∧ ∃ j, j < 1024 ∧ priv (src j) = true)
      s := by
  unfold copyPt
  simp only [wp_bind]
  refine wp_mono h.allocFrame_spec (fun t s₀ hpost => ?_)
    (fun _ _ he => Or.inl he)
  obtain ⟨hfree, hzero, h₀, k₀⟩ := hpost
  obtain ⟨hn, hnode⟩ := h.shape.unnamed_of_free hfree
  have htk := h.shape.not_kernel_of_free hfree
  have hpe : 0 < (S.give t).extra t := by
    rw [Space.give_extra_self]
    omega
  have h₁ := h₀.addTable i (t := t) hnode hn hpe htk
  rw [← Space.withTable_zero t i src] at h₁
  simp only [wp_pure]
  refine wp_mono (wp_forI (I := fun k s' => Sound κ b s' (S.withTable t i (upTo κ i src k)) (n - 2) a ∧
    Kept (Held (S.own κ)) s s' ∧ ∀ j, j < 1024 → s'.mem t j = if j < k then src j else 0#32)
    (fun k (hk : k < 1024) s₂ hinv => ?_) ⟨h₁, k₀, fun j _ => by rw [hzero, if_neg]; omega⟩)
    (fun _ s' hpost => ⟨hfree, fun j hj => by
      rw [hpost.2.2 j hj, if_pos (show j < PAGES_PER_TABLE from hj)], hpost.1, hpost.2.1⟩)
    (fun _ _ he => he)
  obtain ⟨h₂, k₂, hm₂⟩ := hinv
  have hload : s₂.mem pt k = src k := (congrFun (k₂.mem pt hpt) k).trans (hmem k hk)
  obtain ⟨E, hro⟩ := hsrc k hk
  have hkern : ∀ s₃, Sound κ b s₃ (S.withTable t i (upTo κ i src k)) (n - 2) a →
      priv (src k) = false → Sound κ b s₃ (S.withTable t i (upTo κ i src (k + 1))) (n - 2) a := by
    intro s₃ h₃ hp
    have hr := refOf_eq_none.mpr hp
    exact Sound.withTable_step (x := (S.withTable t i src).extra) hsrc hn hk hnode h₃
      (fun q => by rw [hr]; simp) (fun q hq => by rw [hr] at hq; simp at hq)
  -- the store of the entry, which two branches make
  have htn : t ∈ (S.withTable t i (upTo κ i src k)).nodes := by
    rw [Space.withTable_nodes]
    exact Finset.mem_insert_self _ _
  have h₃ := h₂.store (h₂.shape.held_node htn) htk (Function.update (s₂.mem t) k (src k))
  have k₃ := k₂.store (p := t) (fun hh => hh hfree) (Function.update (s₂.mem t) k (src k))
  have hm₃ : ∀ j, j < 1024 → Function.update s₂.mem t (Function.update (s₂.mem t) k (src k)) t j =
      if j < k + 1 then src j else 0#32 := by
    intro j hj
    rw [Function.update_self]
    by_cases hjk : j = k
    · rw [hjk, Function.update_self, if_pos (Nat.lt_succ_self k)]
    · rw [Function.update_of_ne hjk, hm₂ j hj]
      exact if_congr (by omega) rfl rfl
  simp only [wp_bind, wp_load, wp_ite, wp_pure, wp_assert, wp_store, hload]
  by_cases hP : present (src k) = true
  · rw [if_neg (by rw [and_P, hP]; simp)]
    by_cases hp : priv (src k) = true
    · -- a read-only page: the entry is copied and the page has one more reference
      have hg : global (src k) = false := (E.priv_iff hP).mp hp
      obtain ⟨hro, x, hx, m, hm, hpx, hwx, hfx⟩ := hro hp
      rw [if_neg (by rw [ne_eq, not_not, and_G, hg]), if_pos (and_RW.mpr hro)]
      have hxt : x ≠ t := by rintro rfl; exact hnode hx
      have hxn : x ∈ (S.withTable t i (upTo κ i src k)).nodes := by
        rw [Space.withTable_nodes]
        exact Finset.mem_insert_of_mem hx
      have hex : (S.withTable t i (upTo κ i src k)).ent x m = S.ent x m := by
        rw [Space.withTable_ent_ne hxt]
      have hpos : 0 < (S.withTable t i (upTo κ i src k)).count (frame (src k)) := by
        have := Space.names_pos_of_ent hxn hm (by rw [hex]; exact hpx)
        rw [hex, hfx] at this
        unfold Space.count
        omega
      refine wp_mono (h₃.incref_spec hpos fun y hy l hl hpy hfy => ?_) (fun _ s₄ hpost => ?_)
        (fun e _ he => Or.inr ⟨he, k, hk, hp⟩)
      · exact h₂.shape.readOnly_of_readOnly hxn hm (by rw [hex]; exact hpx)
          (by rw [hex]; exact hwx) hy hl hpy (by rw [hex, hfx]; exact hfy)
      · obtain ⟨h₄, k₄⟩ := hpost
        have hheld : ∀ q, Held (S.own κ) q →
            Held ((S.withTable t i (upTo κ i src k)).own κ) q := by
          intro q hq
          rw [Space.held_iff] at hq ⊢
          exact hq.imp id (Or.imp id fun hc => hc.trans_le (Space.count_le_withTable i hnode _ q))
        refine ⟨Sound.withTable_step (x := ((S.withTable t i src).give (frame (src k))).extra)
          hsrc hn hk hnode h₄ (fun q => ?_) (fun q hq => ?_), k₃.trans (k₄.weaken hheld),
          fun j hj => ?_⟩
        · rw [refOf_eq_some.mpr ⟨hp, rfl⟩]
          by_cases hq : frame (src k) = q
          · rw [if_pos (by rw [hq]), ← hq, Space.give_extra_self, Nat.add_sub_cancel]
          · rw [if_neg (by simpa using hq), Nat.sub_zero, Space.give_extra_ne (Ne.symm hq)]
        · obtain ⟨-, rfl⟩ := refOf_eq_some.mp hq
          rw [Space.give_extra_self]
          omega
        · rw [k₄.mem t (h₂.shape.held_node htn)]
          exact hm₃ j hj
    · -- an entry of the kernel
      have hp' : priv (src k) = false := by simpa using hp
      have hk := E.kernelEntry hP hp'
      rw [if_pos (by rw [ne_eq, and_G, hk.global]; simp), if_pos (and_NG.mpr hk.nonGlobal)]
      exact ⟨hkern _ h₃ hp', k₃, hm₃⟩
  · -- no entry
    have hP' : present (src k) = false := by simpa using hP
    rw [if_pos (and_P.mpr hP')]
    refine ⟨hkern _ h₂ (not_priv_of_absent hP'), k₂, fun j hj => ?_⟩
    rw [hm₂ j hj]
    by_cases hjk : j = k
    · rw [hjk, if_neg (Nat.lt_irrefl k), if_pos (Nat.lt_succ_self k), E.absent hP']
    · exact if_congr (by omega) rfl rfl

end OsKernel.Vmm
