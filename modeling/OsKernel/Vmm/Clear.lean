import OsKernel.Vmm.Fork

/-!
# `clear_pd` and `destroy_pd`

Exec empties a directory in place and exit gives it up. Both drop one reference for each
private entry. A table that also holds kernel entries is not dropped by `clear_pd`: it loses
its pages and stays.

The two are one loop over the directory, with different invariants. `Clearing` has the
directory in the space, with the slots reached so far emptied; an iteration is `skip`,
`dropSlot` or `wipeSlot`. `Destroying` has it taken out of the space first (`dropDir`),
although the code gives the frame back last: from the first iteration on, entries in memory
name tables that may have been destroyed, and the directory must not be a node while they do.
What it referred to is in hand, and the loop gives it back entry by entry.

`clear_pt` asserts at its end that the table had an entry of the kernel. It is called only for
directory entries with both marks, and that such a table has one follows from the shape, under
`b`. Without `b` the assertion can fail, if no entry is left; what it looks at then is an
uninitialised word, and the results hold for both values of it.

Other processes are the other half of the statements. What they find is unchanged, at every
address: a table that was theirs too keeps a reference, and so does a page.
-/

set_option autoImplicit false

namespace OsKernel.Vmm

open Lib Lib.Prog K PhysMem

variable {κ : KernelMap} {b : Prop} {s : Machine} {S : Space} {n : Nat}
  {a : Word → Word → Prop} {d t : Word} {i j : Nat}

/-! ## `clear_pt`

The private entries of one table go, one after the other, and each page with its reference. The
entries of the kernel stay, so the table afterwards is the old one with zeros in some places
(`wipe`). The assertion at the end of the function may fail at a table without entries, which the
specification leaves open and the caller excludes. -/

/-- The entries `src` without the private ones among the first `k`. -/
def wipe (src : Nat → Word) (k : Nat) : Nat → Word :=
  fun j => if j < k ∧ priv (src j) = true then 0#32 else src j

theorem wipe_zero (src : Nat → Word) : wipe src 0 = src := by
  funext j
  rw [wipe, if_neg (fun h => Nat.not_lt_zero j h.1)]

theorem wipe_at (src : Nat → Word) (k : Nat) : wipe src k k = src k :=
  if_neg fun h => Nat.lt_irrefl k h.1

theorem wipe_succ_of_priv {src : Nat → Word} {k : Nat} (hp : priv (src k) = true) :
    wipe src (k + 1) = Function.update (wipe src k) k 0#32 := by
  funext j
  by_cases hj : j = k
  · rw [hj, Function.update_self, wipe, if_pos ⟨Nat.lt_succ_self k, hp⟩]
  · rw [Function.update_of_ne hj, wipe, wipe]
    exact if_congr (by rw [show j < k + 1 ↔ j < k by omega]) rfl rfl

theorem wipe_succ_of_not_priv {src : Nat → Word} {k : Nat} (hp : priv (src k) = false) :
    wipe src (k + 1) = wipe src k := by
  funext j
  by_cases hj : j = k
  · rw [hj, wipe_at, wipe, if_neg (fun h => by rw [hp] at h; exact absurd h.2 (by simp))]
  · rw [wipe, wipe]
    exact if_congr (by rw [show j < k + 1 ↔ j < k by omega]) rfl rfl

/-- The table `t` with the entries `src`. -/
def Space.withEnt (S : Space) (t : Word) (src : Nat → Word) : Space :=
  { S with ent := Function.update S.ent t src }

theorem Space.withEnt_self (S : Space) (t : Word) : S.withEnt t (S.ent t) = S := by
  unfold withEnt
  rw [Function.update_eq_self]

theorem Space.withEnt_ent_self {src : Nat → Word} : (S.withEnt t src).ent t = src :=
  Function.update_self ..

theorem Space.withEnt_ent_ne {src : Nat → Word} {x : Word} (h : x ≠ t) :
    (S.withEnt t src).ent x = S.ent x := Function.update_of_ne h ..

/-- An entry goes, and the reference it held with it. -/
theorem Space.withEnt_put_take (src : Nat → Word) (hp : priv (src j) = true) :
    ((S.withEnt t src).put t j 0#32).take (frame (src j)) =
      S.withEnt t (Function.update src j 0#32) := by
  have hr : (S.withEnt t src).ref t j = some (frame (src j)) := by
    unfold ref
    rw [withEnt_ent_self]
    exact refOf_eq_some.mpr ⟨hp, rfl⟩
  have hent : ((S.withEnt t src).put t j 0#32).ent =
      Function.update S.ent t (Function.update src j 0#32) := by
    funext x
    by_cases hx : x = t
    · rw [hx, Function.update_self]
      funext l
      by_cases hl : l = j
      · rw [hl, put_ent_self, Function.update_self]
      · rw [put_ent_other hl, Function.update_of_ne hl, withEnt_ent_self]
    · rw [put_ent_ne hx, Function.update_of_ne hx, withEnt_ent_ne hx]
  have hex : (((S.withEnt t src).put t j 0#32).take (frame (src j))).extra = S.extra := by
    funext q
    have hput : ((S.withEnt t src).put t j 0#32).extra q =
        S.extra q + if some (frame (src j)) = some q then 1 else 0 := by
      rw [put_extra, hr, refOf_zero, if_neg (by simp : ¬ (none = some q)), Nat.sub_zero]
      rfl
    by_cases hq : q = frame (src j)
    · rw [hq, take_extra_self, ← hq, hput, if_pos (by rw [hq]), Nat.add_sub_cancel]
    · rw [take_extra_ne hq, hput, if_neg (by simpa using Ne.symm hq), Nat.add_zero]
  show { S with
    ent := ((S.withEnt t src).put t j 0#32).ent
    extra := (((S.withEnt t src).put t j 0#32).take (frame (src j))).extra } = _
  rw [hent, hex]
  rfl

theorem TableEntry.zero (hk : b → κ.pte i j = 0#32) : TableEntry κ b S i j 0#32 where
  kernel _ := Or.inl rfl
  keeps hb hne := absurd (hk hb) hne
  page hp := absurd hp (by simp)
  notKernel hp := absurd hp (by simp)
  user hp := absurd hp (by simp)
  notGlobal hp := absurd hp (by simp)
  single hp := absurd hp (by simp)

/-- `clear_pt` at entry `k`. -/
structure Wiping (κ : KernelMap) (b : Prop) (n : Nat) (a : Word → Word → Prop) (s : Machine)
    (S : Space) (t : Word) (k : Nat) (s' : Machine) : Prop where
  sound : Sound κ b s' (S.withEnt t (wipe (S.ent t) k)) n a
  kept : Kept (fun q => Held ((S.withEnt t (wipe (S.ent t) k)).own κ) q ∧ q ≠ t) s s'
  held : ∀ q, Held ((S.withEnt t (wipe (S.ent t) k)).own κ) q → Held (S.own κ) q
  mem : ∀ j, j < 1024 → s'.mem t j = wipe (S.ent t) k j

/-- A page goes. -/
theorem Wiping.page {s' : Machine} {k : Nat} (hS : Shape κ b S) (ht : t ∈ S.tables)
    (hk : k < 1024) (hp : priv (S.ent t k) = true) (I : Wiping κ b n a s S t k s') :
    wp (do
        decref (frame (S.ent t k)) destroyPg
        K.store t k 0#32)
      (fun _ => Wiping κ b n a s S t (k + 1)) (fun _ _ => False) s' := by
  have htn : t ∈ S.nodes := Space.mem_nodes.mpr (Or.inr ht)
  have E := hS.tableEntry t ht k hk
  have hwk : wipe (S.ent t) k k = S.ent t k := wipe_at _ k
  have h₁ := I.sound.put (x := t) (i := k) (e := 0#32) htn hk (fun q hq => by simp at hq)
    (fun hd => absurd ht (hS.disj t hd)) (fun _ => TableEntry.zero fun hb => by
      by_contra hne
      have := E.keeps hb hne
      rw [this, κ.pte_priv] at hp
      exact absurd hp (by simp)) (fun _ hp' => absurd hp' (by simp)) (fun q _ hq => by simp at hq)
  have hnext := Space.withEnt_put_take (S := S) (t := t) (j := k) (wipe (S.ent t) k)
    (by rw [hwk]; exact hp)
  rw [hwk, ← wipe_succ_of_priv hp] at hnext
  have hex : 0 < ((S.withEnt t (wipe (S.ent t) k)).put t k 0#32).extra (frame (S.ent t k)) := by
    have hr : (S.withEnt t (wipe (S.ent t) k)).ref t k = some (frame (S.ent t k)) := by
      unfold Space.ref
      rw [Space.withEnt_ent_self, hwk]
      exact refOf_eq_some.mpr ⟨hp, rfl⟩
    rw [Space.put_extra, hr, if_pos rfl, refOf_zero, if_neg (by simp)]
    omega
  simp only [wp_bind, wp_store]
  refine wp_mono (h₁.decref_destroyPg_spec hex
    (fun hm => E.page hp (Space.mem_nodes.mpr (Or.inr hm)))
    (fun hm => E.notKernel hp (Finset.mem_union_right _ hm))) (fun _ s₂ hpost => ?_)
    (fun _ _ he => he)
  obtain ⟨h₂, k₂⟩ := hpost
  have hheld : ∀ q, Held ((((S.withEnt t (wipe (S.ent t) k)).put t k 0#32).take
      (frame (S.ent t k))).own κ) q → Held ((S.withEnt t (wipe (S.ent t) k)).own κ) q := by
    intro q hq
    have := Space.held_of_take hex hq
    rwa [Space.own_congr (κ := κ) (Space.count_put (S := S.withEnt t (wipe (S.ent t) k)) htn hk
      (fun q hq => by simp at hq)) rfl] at this
  have ht₂ : Held ((((S.withEnt t (wipe (S.ent t) k)).put t k 0#32).take
      (frame (S.ent t k))).own κ) t := h₂.shape.held_node htn
  have hm₂ := k₂.mem t ht₂
  rw [hnext] at h₂ k₂ hheld ht₂
  refine ⟨h₂.store ht₂ (hS.kernelNodes t htn) _,
    ((I.kept.weaken fun q hq => ⟨hheld q hq.1, hq.2⟩).trans (k₂.weaken fun q hq => hq.1)).store
      (fun hq => hq.2 rfl) _, fun q hq => I.held q (hheld q hq), fun j hj => ?_⟩
  show Function.update s₂.mem t _ t j = _
  rw [Function.update_self, wipe_succ_of_priv hp]
  by_cases hjk : j = k
  · rw [hjk, Function.update_self, Function.update_self]
  · rw [Function.update_of_ne hjk, Function.update_of_ne hjk, hm₂, I.mem j hj]

theorem Wiping.skip {s' : Machine} {k : Nat} (hp : priv (S.ent t k) = false)
    (I : Wiping κ b n a s S t k s') : Wiping κ b n a s S t (k + 1) s' := by
  have hw := wipe_succ_of_not_priv hp
  exact ⟨by rw [hw]; exact I.sound, by rw [hw]; exact I.kept, by rw [hw]; exact I.held,
    by rw [hw]; exact I.mem⟩

/-- `clear_pt` takes the pages out. The assertion at its end fails at most if no entry is left. -/
theorem Sound.clearPt_spec (h : Sound κ b s S n a) (ht : t ∈ S.tables)
    (hm : ∀ j, j < 1024 → s.mem t j = S.ent t j) (discard : Bool) :
    wp (clearPt discard t) (fun _ => Wiping κ b n a s S t 1024)
      (fun e _ => e = .assertion ∧
        ∀ j, j < 1024 → present (S.ent t j) = true → priv (S.ent t j) = true) s := by
  have I₀ : Wiping κ b n a s S t 0 s := by
    refine ⟨?_, Kept.refl _ s, fun q hq => ?_, by rw [wipe_zero]; exact hm⟩
    · rw [wipe_zero, Space.withEnt_self]
      exact h
    · rwa [wipe_zero, Space.withEnt_self] at hq
  unfold clearPt
  simp only [wp_bind, wp_assert]
  refine wp_mono (wp_foldI (n := PAGES_PER_TABLE) (I := fun k c s' => Wiping κ b n a s S t k s' ∧
      (c = false ∨ ∀ j, j < k → present (S.ent t j) = true → priv (S.ent t j) = true))
    (fun k (hk : k < 1024) c s' hinv => ?_) ⟨I₀, Or.inr fun j hj => absurd hj (Nat.not_lt_zero j)⟩)
    (fun c s' hpost => ?_) (fun _ _ he => he)
  · obtain ⟨I, hc⟩ := hinv
    have hload : s'.mem t k = S.ent t k := by rw [I.mem k hk, wipe_at]
    have hnext : (present (S.ent t k) = true → priv (S.ent t k) = true) →
        c = false ∨ ∀ j, j < k + 1 → present (S.ent t j) = true → priv (S.ent t j) = true := by
      refine fun hk' => hc.imp id fun hall j hj => ?_
      obtain hjk | rfl := Nat.lt_succ_iff_lt_or_eq.mp hj
      · exact hall j hjk
      · exact hk'
    simp only [wp_bind, wp_load, wp_ite, wp_pure, wp_store, hload]
    by_cases hP : present (S.ent t k) = true
    · rw [if_neg (by rw [and_P, hP]; simp)]
      by_cases hp : priv (S.ent t k) = true
      · rw [if_neg (by rw [and_NG, nonGlobal_of_priv hp]; simp)]
        have hpage := I.page h.shape ht hk hp
        simp only [wp_bind, wp_store] at hpage
        exact wp_mono hpage (fun _ _ h' => ⟨h', hnext fun _ => hp⟩) (fun _ _ he => he.elim)
      · have hnp : priv (S.ent t k) = false := by simpa using hp
        have hng : nonGlobal (S.ent t k) = false := by
          unfold priv at hnp
          rw [hP, Bool.true_and] at hnp
          exact hnp
        rw [if_pos (and_NG.mpr hng)]
        exact ⟨I.skip hnp, Or.inl trivial⟩
    · have hP' : present (S.ent t k) = false := by simpa using hP
      rw [if_pos (and_P.mpr hP')]
      exact ⟨I.skip (not_priv_of_absent hP'), hnext fun h => absurd h hP⟩
  · obtain ⟨I, hc⟩ := hpost
    split
    · exact I
    · rename_i hne
      exact ⟨trivial, hc.resolve_left hne⟩

/-! ## `clear_pd`

A slot with a table of the process's own loses the table as well; one whose table holds kernel
entries keeps it. `Clearing` is a directory in the middle: its first slots show what the kernel
shows, and nobody else notices, which is where the reference counts of shared tables come in. -/

/-- The directory `d` while `clear_pd` is at slot `k`. Nobody else notices, as long as the tables
with kernel entries are known to be unshared. -/
structure Clearing (κ : KernelMap) (b : Prop) (n : Nat) (a : Word → Word → Prop) (s : Machine)
    (S : Space) (d : Word) (k : Nat) (s' : Machine) (S' : Space) : Prop where
  sound : Sound κ b s' S' n a
  agrees : Agrees s' S'
  dirs : S'.dirs = S.dirs
  nodes : S'.nodes ⊆ S.nodes
  extra : S'.extra = S.extra
  dying : S'.dying = S.dying
  regs : SameMap s s'
  mono : s.avail.toNat ≤ s'.avail.toNat
  held : ∀ q, Held (S'.own κ) q → Held (S.own κ) q
  mem : ∀ q, q ∉ S.nodes → Held (S'.own κ) q → s'.mem q = s.mem q
  other : b → ∀ x ∈ S.dirs, x ≠ d → ∀ i, i < 1024 → S'.ent x i = S.ent x i ∧
    ∀ l, l < 1024 → S'.pte κ x i l = S.pte κ x i l
  clear : b → ∀ i, i < k → ∀ l, l < 1024 → S'.pte κ d i l = κ.pte i l

namespace Clearing

variable {k : Nat} {s' s'' : Machine} {S' S'' : Space}

theorem refl (h : Sound κ b s S n a) (hA : Agrees s S) (d : Word) :
    Clearing κ b n a s S d 0 s S where
  sound := h
  agrees := hA
  dirs := rfl
  nodes := Finset.Subset.refl _
  extra := rfl
  dying := rfl
  regs := ⟨rfl, rfl, rfl, rfl⟩
  mono := Nat.le_refl _
  held _ hq := hq
  mem _ _ _ := rfl
  other _ _ _ _ _ _ := ⟨rfl, fun _ _ => rfl⟩
  clear _ i hi := absurd hi (Nat.not_lt_zero i)

/-- A slot without a private table shows the kernel's entries. -/
theorem skip (I : Clearing κ b n a s S d k s' S') (hp : priv (S'.ent d k) = false) :
    Clearing κ b n a s S d (k + 1) s' S' :=
  { I with
    clear := fun hb i hi l hl => by
      obtain hik | rfl := Nat.lt_succ_iff_lt_or_eq.mp hi
      · exact I.clear hb i hik l hl
      · exact Space.pte_of_not_priv hp l }

/-- One more slot has been cleared. -/
theorem advance (I : Clearing κ b n a s S d k s' S') (h : Sound κ b s'' S'' n a)
    (hA : Agrees s'' S'') (hdirs : S''.dirs = S'.dirs) (hnodes : S''.nodes ⊆ S'.nodes)
    (hextra : S''.extra = S'.extra) (hdying : S''.dying = S'.dying) (hregs : SameMap s' s'')
    (hmono : s'.avail.toNat ≤ s''.avail.toNat)
    (hheld : ∀ q, Held (S''.own κ) q → Held (S'.own κ) q)
    (hmem : ∀ q, q ∉ S'.nodes → Held (S''.own κ) q → s''.mem q = s'.mem q)
    (hother : b → ∀ x ∈ S'.dirs, ∀ i, i < 1024 → ¬ (x = d ∧ i = k) →
      S''.ent x i = S'.ent x i ∧ ∀ l, l < 1024 → S''.pte κ x i l = S'.pte κ x i l)
    (hclear : b → ∀ l, l < 1024 → S''.pte κ d k l = κ.pte k l) (hd : d ∈ S.dirs) (hk : k < 1024) :
    Clearing κ b n a s S d (k + 1) s'' S'' where
  sound := h
  agrees := hA
  dirs := hdirs.trans I.dirs
  nodes := hnodes.trans I.nodes
  extra := hextra.trans I.extra
  dying := hdying.trans I.dying
  regs := I.regs.trans hregs
  mono := I.mono.trans hmono
  held q hq := I.held q (hheld q hq)
  mem q hq hh := (hmem q (fun hq' => hq (I.nodes hq')) hh).trans (I.mem q hq (hheld q hh))
  other hb x hx hxd i hi := by
    have h₁ := I.other hb x hx hxd i hi
    have h₂ := hother hb x (by rw [I.dirs]; exact hx) i hi fun h => hxd h.1
    exact ⟨h₂.1.trans h₁.1, fun l hl => (h₂.2 l hl).trans (h₁.2 l hl)⟩
  clear hb i hi l hl := by
    obtain hik | rfl := Nat.lt_succ_iff_lt_or_eq.mp hi
    · rw [(hother hb d (by rw [I.dirs]; exact hd) i (by omega) fun h => absurd h.2 (by omega)).2 l hl]
      exact I.clear hb i hik l hl
    · exact hclear hb l hl

/-- A table of the process's own goes. -/
theorem dropSlot (I : Clearing κ b n a s S d k s' S') (hd : d ∈ S.dirs) (hk : k < 1024)
    (hp : priv (S'.ent d k) = true) (hg : global (S'.ent d k) = false) :
    wp (do
        decref (frame (S'.ent d k)) destroyPt
        K.store d k 0#32)
      (fun _ s'' => ∃ S'', Clearing κ b n a s S d (k + 1) s'' S'') (fun _ _ => False) s' := by
  have hd' : d ∈ S'.dirs := by rw [I.dirs]; exact hd
  have hdn : d ∈ S'.nodes := Space.mem_nodes.mpr (Or.inl hd')
  have H := I.sound.shape
  have E := H.dirEntry d hd' k hk
  have htab := E.table hp
  have htd : frame (S'.ent d k) ≠ d := by
    intro hf
    exact H.disj d hd' (by rw [← hf]; exact htab)
  -- the table has no G bit, so nothing of the kernel's is behind it
  have hk0 : κ.pde k = 0#32 := by
    by_contra hne
    rw [(E.mixed hp).mpr hne] at hg
    exact absurd hg (by simp)
  have hr : S'.ref d k = some (frame (S'.ent d k)) := refOf_eq_some.mpr ⟨hp, rfl⟩
  -- in the space the entry goes first and its reference is in hand, while the code gives the
  -- reference back before it stores
  have h₁ := I.sound.put (x := d) (i := k) (e := 0#32) hdn hk (fun q hq => by simp at hq)
    (fun _ => {
      kernel := fun _ => hk0.symm
      table := fun hp' => absurd hp' (by simp)
      home := fun hp' => absurd hp' (by simp)
      user := fun hp' => absurd hp' (by simp)
      mixed := fun hp' => absurd hp' (by simp)
      mixedWritable := fun _ hp' => absurd hp' (by simp)
      single := fun hp' => absurd hp' (by simp)
      shared := fun hp' => absurd hp' (by simp) })
    (fun hdt => absurd hdt (H.disj d hd')) (fun hdt => absurd hdt (H.disj d hd'))
    (fun q _ hq => by simp at hq)
  have hput : ∀ q, (S'.put d k 0#32).extra q =
      S'.extra q + if q = frame (S'.ent d k) then 1 else 0 := by
    intro q
    rw [Space.put_extra, hr, refOf_zero, if_neg (by simp : ¬ (none = some q)), Nat.sub_zero]
    congr 1
    exact if_congr (by rw [Option.some.injEq, eq_comm]) rfl rfl
  have hex : 0 < (S'.put d k 0#32).extra (frame (S'.ent d k)) := by
    rw [hput, if_pos rfl]
    omega
  simp only [wp_bind, wp_store]
  refine wp_mono (h₁.decref_destroyPt_spec htab hex fun i hi => ?_) (fun _ s₂ hpost => ?_)
    (fun _ _ he => he)
  · rw [Space.put_ent_ne htd]
    exact I.agrees _ (Space.mem_nodes.mpr (Or.inr htab)) i hi
  obtain ⟨h₂, k₂⟩ := hpost
  have hent : ((S'.put d k 0#32).dropTable (frame (S'.ent d k))).ent = (S'.put d k 0#32).ent :=
    Space.dropTable_ent
  have hnodes : ((S'.put d k 0#32).dropTable (frame (S'.ent d k))).nodes ⊆ S'.nodes :=
    Space.dropTable_nodes (S := S'.put d k 0#32) _
  have hd₂ : d ∈ ((S'.put d k 0#32).dropTable (frame (S'.ent d k))).nodes :=
    Space.mem_nodes.mpr (Or.inl (by rw [Space.dropTable_dirs]; exact hd'))
  have hheld : ∀ q, Held (((S'.put d k 0#32).dropTable (frame (S'.ent d k))).own κ) q →
      Held (S'.own κ) q := by
    intro q hq
    have hown : (S'.put d k 0#32).own κ = S'.own κ :=
      Space.own_congr (Space.count_put hdn hk (fun q hq => by simp at hq)) rfl
    rw [← hown]
    exact Space.held_of_count_le hq (Space.count_dropTable_le htab (fun hfd => H.disj _ hfd htab) hex)
      Space.dropTable_dying.symm
  refine ⟨_, I.advance (h₂.store (h₂.shape.held_node hd₂) (H.kernelNodes d hdn) _)
    (fun x hx i hi => ?_) Space.dropTable_dirs hnodes ?_ Space.dropTable_dying
    (SameMap.of_regs (k₂.regs.store _)) k₂.mono hheld
    (fun q hq hh => ?_) (fun _ x hx i hi hne => ?_)
    (fun _ l _ => ?_) hd hk⟩
  · have hx' := hnodes hx
    rw [hent]
    show Function.update s₂.mem d _ x i = _
    by_cases hxd : x = d
    · rw [hxd, Function.update_self]
      by_cases hik : i = k
      · rw [hik, Function.update_self, Space.put_ent_self]
      · rw [Function.update_of_ne hik, Space.put_ent_other hik, k₂.mem d (h₂.shape.held_node hd₂)]
        exact I.agrees d hdn i hi
    · rw [Function.update_of_ne hxd, Space.put_ent_ne hxd, k₂.mem x (h₂.shape.held_node hx)]
      exact I.agrees x hx' i hi
  · funext q
    rw [Space.dropTable_extra]
    by_cases hq : q = frame (S'.ent d k)
    · rw [hq, Function.update_self, hput, if_pos rfl, Nat.add_sub_cancel]
    · rw [Function.update_of_ne hq, hput, if_neg hq, Nat.add_zero]
  · have hqd : q ≠ d := by rintro rfl; exact hq hdn
    show Function.update s₂.mem d _ q = _
    rw [Function.update_of_ne hqd, k₂.mem q hh]
  · have he : (S'.put d k 0#32).ent x i = S'.ent x i := by
      by_cases hxd : x = d
      · rw [hxd, Space.put_ent_other fun h => hne ⟨hxd, h⟩]
      · rw [Space.put_ent_ne hxd]
    refine ⟨by rw [hent, he], fun l _ => ?_⟩
    rw [Space.pte_of_ent_eq hent]
    refine Space.pte_congr he fun hpx => ?_
    have hf : frame (S'.ent x i) ≠ d := by
      intro hf
      exact H.disj d hd' (by rw [← hf]; exact (H.dirEntry x hx i hi).table hpx)
    rw [Space.put_ent_ne hf]
  · rw [Space.pte_of_not_priv]
    rw [hent, Space.put_ent_self]
    rfl

/-- A table with kernel entries loses its pages. -/
theorem wipeSlot (I : Clearing κ b n a s S d k s' S') (hd : d ∈ S.dirs) (hk : k < 1024)
    (hp : priv (S'.ent d k) = true) (hg : global (S'.ent d k) = true) (discard : Bool) :
    wp (clearPt discard (frame (S'.ent d k)))
      (fun _ s'' => ∃ S'', Clearing κ b n a s S d (k + 1) s'' S'')
      (fun e _ => e = .assertion ∧ ¬ b) s' := by
  have hd' : d ∈ S'.dirs := by rw [I.dirs]; exact hd
  have hdn : d ∈ S'.nodes := Space.mem_nodes.mpr (Or.inl hd')
  have H := I.sound.shape
  have E := H.dirEntry d hd' k hk
  have htab := E.table hp
  have htn : frame (S'.ent d k) ∈ S'.nodes := Space.mem_nodes.mpr (Or.inr htab)
  have T : ∀ l, l < 1024 → TableEntry κ b S' k l (S'.ent (frame (S'.ent d k)) l) := by
    intro l hl
    have := H.tableEntry _ htab l hl
    rwa [E.home hp] at this
  refine wp_mono (I.sound.clearPt_spec htab (I.agrees _ htn) discard) (fun _ s₂ W => ?_)
    (fun e _ he => ⟨he.1, fun hb => ?_⟩)
  · have hnodes : ∀ src, (S'.withEnt (frame (S'.ent d k)) src).nodes = S'.nodes := fun _ => rfl
    have hdir : ∀ x ∈ S'.dirs, x ≠ frame (S'.ent d k) := by
      intro x hx hf
      exact H.disj x hx (by rw [hf]; exact htab)
    refine ⟨_, I.advance W.sound (fun x hx i hi => ?_) rfl (Finset.Subset.refl _) rfl rfl
      (SameMap.of_regs W.kept.regs) W.kept.mono W.held (fun q hq hh => W.kept.mem q ⟨hh, ?_⟩)
      (fun hb x hx i hi hne => ?_) (fun hb l hl => ?_) hd hk⟩
    · by_cases hxt : x = frame (S'.ent d k)
      · rw [hxt, W.mem i hi, Space.withEnt_ent_self]
      · rw [W.kept.mem x ⟨W.sound.shape.held_node hx, hxt⟩, Space.withEnt_ent_ne hxt]
        exact I.agrees x hx i hi
    · rintro rfl
      exact hq htn
    · have he : (S'.withEnt (frame (S'.ent d k)) (wipe (S'.ent (frame (S'.ent d k))) 1024)).ent x i =
          S'.ent x i := by rw [Space.withEnt_ent_ne (hdir x hx)]
      refine ⟨he, fun l _ => Space.pte_congr he fun hpx => ?_⟩
      -- the table is writable, so that no other slot names it
      have hf : frame (S'.ent x i) ≠ frame (S'.ent d k) := fun hf =>
        hne (Space.only hdn hk hp (E.single hp (E.mixedWritable hb hp hg))
          (Space.mem_nodes.mpr (Or.inl hx)) hi hpx hf)
      rw [Space.withEnt_ent_ne hf]
    · have he : (S'.withEnt (frame (S'.ent d k)) (wipe (S'.ent (frame (S'.ent d k))) 1024)).ent d k =
          S'.ent d k := by rw [Space.withEnt_ent_ne (hdir d hd')]
      rw [Space.pte_of_priv (by rw [he]; exact hp), he, Space.withEnt_ent_self]
      unfold wipe
      by_cases hne : κ.pte k l = 0#32
      · rw [hne]
        by_cases hpl : priv (S'.ent (frame (S'.ent d k)) l) = true
        · rw [if_pos ⟨hl, hpl⟩]
        · rw [if_neg (fun h => hpl h.2)]
          obtain h0 | h0 := (T l hl).kernel (by simpa using hpl)
          · exact h0
          · rw [h0, hne]
      · have hkeep := (T l hl).keeps hb hne
        rw [hkeep, if_neg (fun h => by rw [κ.pte_priv] at h; exact absurd h.2 (by simp))]
  · -- the kernel has a page in this slot
    obtain ⟨j, hj, hne⟩ := κ.used k ((E.mixed hp).mp hg)
    have hkeep := (T j hj).keeps hb hne
    have := he.2 j hj (by rw [hkeep]; exact KernelMap.pte_present_iff.mpr hne)
    rw [hkeep, κ.pte_priv] at this
    exact absurd this (by simp)

/-- What a directory shows is not overwritten. -/
theorem data (I : Clearing κ b n a s S d k s' S') (hb : b) (H : Shape κ b S) {x : Word}
    (hx : x ∈ S.dirs) (hxd : x ≠ d) {i l : Nat} (hi : i < 1024) (hl : l < 1024) :
    S'.data κ s' x i l = S.data κ s x i l :=
  H.data_eq I.sound.shape hx (by rw [I.dirs]; exact hx) hi hl ((I.other hb x hx hxd i hi).2 l hl)
    fun q hq _ hh => I.mem q hq hh

/-- The cleared directory has no pages. -/
theorem data_self (I : Clearing κ b n a s S d 1024 s' S') (hb : b) {i l : Nat} (hi : i < 1024)
    (hl : l < 1024) : S'.data κ s' d i l = fun _ => 0#32 := by
  unfold Space.data
  rw [I.clear hb i hi l hl, κ.pte_priv]
  rfl

end Clearing

theorem Sound.clearPd_spec (h : Sound κ b s S n a) (hA : Agrees s S) (hd : d ∈ S.dirs)
    (discard : Nat → Bool) :
    wp (clearPd discard d) (fun _ s' => s'.tlb = [] ∧ ∃ S', Clearing κ b n a s S d 1024 s' S')
      (fun e _ => e = .assertion ∧ ¬ b) s := by
  unfold clearPd
  simp only [wp_bind, wp_getCR3, wp_setCR3]
  refine wp_mono (wp_forI (n := PAGES_PER_TABLE)
    (I := fun k s' => ∃ S', Clearing κ b n a s S d k s' S')
    (fun k (hk : k < 1024) s' hinv => ?_) ⟨S, Clearing.refl h hA d⟩)
    (fun _ s' hpost => hpost.elim fun S' I => ⟨trivial, S', { I with
      sound := I.sound.regs s'.cr3 []
      regs := ⟨I.regs.start, I.regs.limit, I.regs.kpd, I.regs.cr3⟩ }⟩) (fun _ _ he => he)
  obtain ⟨S', I⟩ := hinv
  have hd' : d ∈ S'.dirs := by rw [I.dirs]; exact hd
  have hload := I.agrees d (Space.mem_nodes.mpr (Or.inl hd')) k hk
  simp only [wp_bind, wp_load, wp_ite, wp_pure, wp_store, hload]
  by_cases hP : present (S'.ent d k) = true
  · rw [if_neg (by rw [and_P, hP]; simp)]
    by_cases hp : priv (S'.ent d k) = true
    · rw [if_neg (by rw [and_NG, nonGlobal_of_priv hp]; simp)]
      by_cases hg : global (S'.ent d k) = true
      · rw [if_neg (by rw [and_G, hg]; simp)]
        exact I.wipeSlot hd hk hp hg (discard k)
      · have hg' : global (S'.ent d k) = false := by simpa using hg
        rw [if_pos (and_G.mpr hg')]
        have hdrop := I.dropSlot hd hk hp hg'
        simp only [wp_bind, wp_store] at hdrop
        exact wp_mono hdrop (fun _ _ h' => h') (fun _ _ he => he.elim)
    · have hnp : priv (S'.ent d k) = false := by simpa using hp
      have hng : nonGlobal (S'.ent d k) = false := by
        unfold priv at hnp
        rw [hP, Bool.true_and] at hnp
        exact hnp
      rw [if_pos (and_NG.mpr hng)]
      exact ⟨S', I.skip hnp⟩
  · have hP' : present (S'.ent d k) = false := by simpa using hP
    rw [if_pos (and_P.mpr hP')]
    exact ⟨S', I.skip (not_priv_of_absent hP')⟩

/-! ## `destroy_pd`

Here the directory is no directory any more from the first step on, and what its entries named is
left to the running operation to give back. So the loop is about references in hand, and no
process looks at the directory in between: another one is loaded by then. -/

/-- `destroy_pd` at slot `k`: `d` is no directory any more, and the references of its first `k`
slots have been given back. -/
structure Destroying (κ : KernelMap) (b : Prop) (n : Nat) (a : Word → Word → Prop) (s : Machine)
    (S : Space) (d : Word) (k : Nat) (s' : Machine) (S' : Space) : Prop where
  sound : Sound κ b s' S' n a
  dirs : S'.dirs = S.dirs.erase d
  tables : S'.tables ⊆ S.tables
  slots : ∀ i, k ≤ i → i < 1024 → priv (S.ent d i) = true → frame (S.ent d i) ∈ S'.tables
  ent : S'.ent = S.ent
  extra : ∀ q, S'.extra q =
    S.extra q + RefGraph.hitsFrom k 1024 (S.ref d) q + if q = d then 1 else 0
  dying : S'.dying = S.dying
  kept : Kept (Held (S'.own κ)) s s'
  held : ∀ q, Held (S'.own κ) q → Held (S.own κ) q

/-- The process with directory `d` is gone. Everybody else sees what they saw. -/
structure Destroyed (κ : KernelMap) (s : Machine) (S : Space) (d : Word) (s' : Machine)
    (S' : Space) : Prop where
  dirs : S'.dirs = S.dirs.erase d
  tables : S'.tables ⊆ S.tables
  ent : S'.ent = S.ent
  extra : S'.extra = S.extra
  dying : S'.dying = S.dying
  kept : Kept (Held (S'.own κ)) s s'
  held : ∀ q, Held (S'.own κ) q → Held (S.own κ) q

theorem Destroyed.data {s' : Machine} {S' : Space} (D : Destroyed κ s S d s' S') (H' : Shape κ b S')
    {x : Word} (hx : x ∈ S.dirs) (hxd : x ≠ d) {i l : Nat} (hi : i < 1024) (hl : l < 1024) :
    S'.data κ s' x i l = S.data κ s x i l := by
  have he := Space.pte_of_ent_eq (κ := κ) D.ent x i l
  refine Space.data_of_pte he fun hp => D.kept.mem _ ?_
  have hx' : x ∈ S'.dirs := by
    rw [D.dirs]
    exact Finset.mem_erase.mpr ⟨hxd, hx⟩
  have := H'.held_pte hx' hi hl (by rw [he]; exact hp)
  rwa [he] at this

theorem Destroying.start (h : Sound κ b s S n a) (hd : d ∈ S.dirs) :
    Destroying κ b n a s S d 0 s (S.dropDir d) where
  sound := h.dropDir hd
  dirs := rfl
  tables := Finset.Subset.refl _
  slots i _ hi hp := (h.shape.dirEntry d hd i hi).table hp
  ent := rfl
  extra q := by rw [Space.dropDir_extra, RefGraph.hits_eq_hitsFrom]
  dying := rfl
  kept := Kept.refl _ s
  held q hq := by
    rwa [Space.own_congr (κ := κ) (Space.count_dropDir hd (h.shape.disj d hd)) rfl] at hq

theorem Destroying.step {k : Nat} {s' : Machine} {S' : Space} (H : Shape κ b S) (hA : Agrees s S)
    (hd : d ∈ S.dirs) (hk : k < 1024) (I : Destroying κ b n a s S d k s' S') :
    wp (do
        let pde ← K.load d k
        if pde &&& (Flag.NG ||| Flag.P) = Flag.NG ||| Flag.P then
          decref (pde &&& Flag.MASK) destroyPt)
      (fun _ s'' => ∃ S'', Destroying κ b n a s S d (k + 1) s'' S'') (fun _ _ => False) s' := by
  have hdn : d ∈ S.nodes := Space.mem_nodes.mpr (Or.inl hd)
  have hheld : Held (S'.own κ) d := Space.held_iff.mpr (Or.inr (Or.inr (by
    have := I.extra d
    rw [if_pos rfl] at this
    unfold Space.count
    omega)))
  have hload : s'.mem d k = S.ent d k := by
    rw [I.kept.mem d hheld]
    exact hA d hdn k hk
  have hstep := RefGraph.hitsFrom_step hk (S.ref d)
  simp only [wp_bind, wp_load, wp_ite, wp_pure, hload]
  by_cases hp : priv (S.ent d k) = true
  · rw [if_pos (and_NG_P.mpr hp)]
    have htab := I.slots k (Nat.le_refl k) hk hp
    have hr : S.ref d k = some (frame (S.ent d k)) := refOf_eq_some.mpr ⟨hp, rfl⟩
    -- the references of the slots from `k` on are still in hand
    have hex : 0 < S'.extra (frame (S.ent d k)) := by
      have h1 := hstep (frame (S.ent d k))
      have h2 := I.extra (frame (S.ent d k))
      rw [hr, if_pos rfl] at h1
      omega
    refine wp_mono (I.sound.decref_destroyPt_spec (t := frame (S.ent d k)) htab hex fun i hi => ?_)
      (fun _ s₂ hpost => ?_) (fun _ _ he => he)
    · have htn : frame (S.ent d k) ∈ S'.nodes := Space.mem_nodes.mpr (Or.inr htab)
      rw [I.kept.mem _ (I.sound.shape.held_node htn), I.ent]
      exact hA _ (Space.mem_nodes.mpr (Or.inr (I.tables htab))) i hi
    · obtain ⟨h₂, k₂⟩ := hpost
      have hheld' : ∀ q, Held ((S'.dropTable (frame (S.ent d k))).own κ) q → Held (S'.own κ) q :=
        fun q hq => Space.held_of_count_le hq (Space.count_dropTable_le htab
          (fun hfd => I.sound.shape.disj _ hfd htab) hex) Space.dropTable_dying.symm
      refine ⟨_, h₂, Space.dropTable_dirs.trans I.dirs, Space.dropTable_tables.trans I.tables,
        fun i hi hi' hpi => Space.mem_dropTable_of_ne (I.slots i (by omega) hi' hpi) ?_,
        Space.dropTable_ent.trans I.ent, fun q => ?_, Space.dropTable_dying.trans I.dying,
        (I.kept.weaken hheld').trans k₂, fun q hq => I.held q (hheld' q hq)⟩
      · -- tables of different slots are different
        intro hf
        have h1 := (H.dirEntry d hd i hi').home hpi
        rw [hf, (H.dirEntry d hd k hk).home hp] at h1
        omega
      · have h1 := hstep q
        have h2 := I.extra q
        rw [Space.dropTable_extra]
        by_cases hq : q = frame (S.ent d k)
        · rw [← hq, Function.update_self]
          rw [hr, ← hq, if_pos rfl] at h1
          omega
        · rw [Function.update_of_ne hq]
          rw [hr, if_neg (by simpa using Ne.symm hq)] at h1
          omega
  · rw [if_neg (fun hc => hp (and_NG_P.mp hc))]
    have hr : S.ref d k = none := refOf_eq_none.mpr (by simpa using hp)
    refine ⟨S', { I with
      slots := fun i hi => I.slots i (by omega)
      extra := fun q => ?_ }⟩
    have h1 := hstep q
    rw [hr, if_neg (by simp)] at h1
    rw [I.extra q, h1, Nat.add_zero]

theorem Sound.destroyPd_spec (h : Sound κ b s S n a) (hA : Agrees s S) (hd : d ∈ S.dirs)
    (hcr3 : s.cr3 ≠ d) :
    wp (destroyPd d) (fun _ s' => ∃ S', Sound κ b s' S' n a ∧ Agrees s' S' ∧
        Destroyed κ s S d s' S') (fun _ _ => False) s := by
  have hdn : d ∈ S.nodes := Space.mem_nodes.mpr (Or.inl hd)
  unfold destroyPd
  simp only [wp_bind, wp_getCR3, wp_assert]
  rw [if_pos (Ne.symm hcr3)]
  refine wp_mono (wp_forI (n := PAGES_PER_TABLE)
    (I := fun k s' => ∃ S', Destroying κ b n a s S d k s' S')
    (fun k (hk : k < 1024) s' hinv => hinv.elim fun S' I => I.step h.shape hA hd hk)
    ⟨_, Destroying.start h hd⟩)
    (fun _ s' hpost => ?_) (fun _ _ he => he)
  obtain ⟨S', I⟩ := hpost
  have hex : ∀ q, S'.extra q = S.extra q + if q = d then 1 else 0 := by
    intro q
    have hend : RefGraph.hitsFrom PAGES_PER_TABLE 1024 (S.ref d) q = 0 :=
      RefGraph.hitsFrom_self 1024 (S.ref d) q
    rw [I.extra q, hend, Nat.add_zero]
  have hpos : 0 < S'.extra d := by
    rw [hex, if_pos rfl]
    omega
  refine wp_mono (I.sound.decref_destroyPg_spec hpos
    (fun hm => h.shape.disj d hd (I.tables hm))
    (fun hk => h.shape.kernelNodes d hdn (Finset.mem_union_right _ hk)))
    (fun _ s₂ hpost => ?_) (fun _ _ he => he)
  obtain ⟨h₂, k₂⟩ := hpost
  have kept : Kept (Held ((S'.take d).own κ)) s s₂ :=
    (I.kept.weaken fun q hq => Space.held_of_take hpos hq).trans k₂
  refine ⟨_, h₂, Agrees.kept hA h₂.shape (fun x hx => ?_) I.ent kept, I.dirs, I.tables, I.ent, ?_,
    I.dying, kept, fun q hq => I.held q (Space.held_of_take hpos hq)⟩
  · rw [Space.take_nodes, Space.mem_nodes, I.dirs] at hx
    exact Space.mem_nodes.mpr (hx.imp Finset.mem_of_mem_erase fun hx' => I.tables hx')
  · funext q
    by_cases hq : q = d
    · rw [hq, Space.take_extra_self, hex, if_pos rfl, Nat.add_sub_cancel]
    · rw [Space.take_extra_ne hq, hex, if_neg hq, Nat.add_zero]

end OsKernel.Vmm
