import OsKernel.Vmm.Space

/-!
# The invariant of address spaces

`Shape κ b S` says what the entries of live directories and tables look like. `b` tells
whether the kernel's entries in a private table are known to be untouched: it holds as long as
the page-fault handler is told the truth about which pages are present, and everything else
holds without it. It is a proposition and not a second invariant because the proofs are the
same. Where the kernel's entries matter, to what a process finds and to what it cannot reach,
a result takes `b` to be true; where only the counts matter it takes it to be false, and
assumes less.

The clauses are of three kinds.

* What one entry may be: `DirEntry` and `TableEntry`. An entry is nothing, the kernel's own,
  or a private one with flags that the code can have written.
* Who else may name the frame (`single`, `shared`): a frame that a writable entry names has
  one reference, and a table behind a read-only directory entry has no writable page. The
  second is what makes it right to share a whole table at fork, by one reference.
* Where the frames are: a node of the space is no frame of the kernel's map, every table has a
  reference, and a table that is being destroyed has none.

Nothing is said about machines. Each move of `Vmm/Space.lean` has its lemma here, which asks
for what the code has just tested or just done; the operations' proofs compose them.

The clauses for tables that mix pages of both kinds (`mixed`, `mixedWritable`) deserve a word.
`write_protect` leaves the directory entry of such a table writable, so that the kernel can go
on writing its own pages, and `copy_pd` then copies the table where it would have shared it.
There are such tables because the APICs lie at user addresses.
-/

set_option autoImplicit false

namespace OsKernel.Vmm

open Lib PhysMem

/-- What entry `i` of a live directory may be. -/
structure DirEntry (κ : KernelMap) (b : Prop) (S : Space) (i : Nat) (e : Word) : Prop where
  kernel : priv e = false → e = κ.pde i
  table : priv e = true → frame e ∈ S.tables
  home : priv e = true → S.home (frame e) = i
  user : priv e = true → user e = true
  /-- `G` beside `NG` marks a private table that also has kernel entries. -/
  mixed : priv e = true → (global e = true ↔ κ.pde i ≠ 0#32)
  mixedWritable : b → priv e = true → global e = true → writable e = true
  single : priv e = true → writable e = true → S.count (frame e) = 1
  /-- No page is written through a table that may be shared. -/
  shared : priv e = true → writable e = false →
    ∀ j, j < 1024 → priv (S.ent (frame e) j) = true → writable (S.ent (frame e) j) = false

/-- What entry `j` of a live table for slot `i` may be. -/
structure TableEntry (κ : KernelMap) (b : Prop) (S : Space) (i j : Nat) (e : Word) : Prop where
  kernel : priv e = false → e = 0#32 ∨ e = κ.pte i j
  keeps : b → κ.pte i j ≠ 0#32 → e = κ.pte i j
  page : priv e = true → frame e ∉ S.nodes
  notKernel : priv e = true → frame e ∉ κ.frames
  user : priv e = true → user e = true
  notGlobal : priv e = true → global e = false
  single : priv e = true → writable e = true → S.count (frame e) = 1

structure Shape (κ : KernelMap) (b : Prop) (S : Space) : Prop where
  disj : ∀ d ∈ S.dirs, d ∉ S.tables
  held : ∀ t ∈ S.tables, 0 < S.count t
  /-- Frames without a reference count have no references. -/
  still : ∀ p, p ∈ κ.raw ∨ p ∈ S.dying → S.count p = 0
  dyingRaw : ∀ p ∈ S.dying, p ∉ κ.raw
  kernelNodes : ∀ x ∈ S.nodes, x ∉ κ.frames
  kernelCounted : ∀ p ∈ κ.counted, 0 < S.extra p
  dirEntry : ∀ d ∈ S.dirs, ∀ i, i < 1024 → DirEntry κ b S i (S.ent d i)
  tableEntry : ∀ t ∈ S.tables, ∀ j, j < 1024 → TableEntry κ b S (S.home t) j (S.ent t j)

variable {κ : KernelMap} {b : Prop} {S : Space}

theorem not_priv_of_absent {e : Word} (h : present e = false) : priv e = false := by
  unfold priv
  rw [h, Bool.false_and]

namespace TableEntry

variable {i j : Nat} {e : Word}

theorem kernelEntry (E : TableEntry κ b S i j e) (h : present e = true) (hp : priv e = false) :
    KernelEntry e := by
  obtain h0 | h0 := E.kernel hp
  · rw [h0] at h
    exact absurd h (by simp)
  · obtain h1 | h1 := κ.pteOk i j
    · rw [h0, h1] at h
      exact absurd h (by simp)
    · rw [h0]
      exact h1

theorem absent (E : TableEntry κ b S i j e) (h : present e = false) : e = 0#32 := by
  obtain h0 | h0 := E.kernel (not_priv_of_absent h)
  · exact h0
  · obtain h1 | h1 := κ.pteOk i j
    · rw [h0, h1]
    · rw [h0, h1.present] at h
      exact absurd h (by simp)

/-- In a table, a present entry is private exactly if it is not global. -/
theorem priv_iff (E : TableEntry κ b S i j e) (h : present e = true) :
    priv e = true ↔ global e = false := by
  refine ⟨E.notGlobal, fun hg => ?_⟩
  by_contra hp
  have := (E.kernelEntry h (by simpa using hp)).global
  rw [hg] at this
  exact absurd this (by simp)

end TableEntry

/-- The kernel's own entries may stand in a private table. -/
theorem KernelMap.tableEntry (κ : KernelMap) (b : Prop) (S : Space) (i j : Nat) :
    TableEntry κ b S i j (κ.pte i j) := by
  have hpr := κ.pte_priv i j
  exact {
    kernel := fun _ => Or.inr rfl
    keeps := fun _ _ => rfl
    page := fun hp => absurd hp (by simp [hpr])
    notKernel := fun hp => absurd hp (by simp [hpr])
    user := fun hp => absurd hp (by simp [hpr])
    notGlobal := fun hp => absurd hp (by simp [hpr])
    single := fun hp => absurd hp (by simp [hpr]) }

/-- Where a writable entry is, no other entry names the frame. -/
theorem Space.only {x y : Word} {i j : Nat} (hx : x ∈ S.nodes) (hi : i < 1024)
    (hp : priv (S.ent x i) = true) (h1 : S.count (frame (S.ent x i)) = 1)
    (hy : y ∈ S.nodes) (hj : j < 1024) (hq : priv (S.ent y j) = true)
    (he : frame (S.ent y j) = frame (S.ent x i)) : y = x ∧ j = i := by
  have hn := Space.names_pos_of_ent hx hi hp
  have h1' : S.names (frame (S.ent x i)) = 1 := by
    unfold Space.count at h1
    omega
  exact RefGraph.names_place h1' hy hj (refOf_eq_some.mpr ⟨hq, he⟩) hx hi
    (refOf_eq_some.mpr ⟨hp, rfl⟩)

theorem Space.extra_zero {x : Word} {i : Nat} (hx : x ∈ S.nodes) (hi : i < 1024)
    (hp : priv (S.ent x i) = true) (h1 : S.count (frame (S.ent x i)) = 1) :
    S.extra (frame (S.ent x i)) = 0 := by
  have hn := Space.names_pos_of_ent hx hi hp
  unfold Space.count at h1
  omega

namespace Shape

section facts

variable (H : Shape κ b S)

include H

theorem not_raw {p : Word} (hp : 0 < S.count p) : p ∉ κ.raw := fun h => by
  have := H.still p (Or.inl h)
  omega

theorem not_dying {p : Word} (hp : 0 < S.count p) : p ∉ S.dying := fun h => by
  have := H.still p (Or.inr h)
  omega

theorem own_counted {p : Word} {k : Nat} (hp : S.count p = k + 1) : S.own κ p = .counted k :=
  Space.own_eq_counted (H.not_raw (by omega)) (H.not_dying (by omega)) hp

theorem count_node {x : Word} (hx : x ∈ S.nodes) : 0 < S.count x := by
  obtain hd | ht := Space.mem_nodes.mp hx
  · have := Space.names_pos_of_dir hd
    unfold Space.count
    omega
  · exact H.held x ht

theorem held_node {x : Word} (hx : x ∈ S.nodes) : Held (S.own κ) x :=
  Space.held_iff.mpr (Or.inr (Or.inr (H.count_node hx)))

/-- A frame that nobody refers to is neither a node nor named. -/
theorem unnamed_of_free {p : Word} (hp : S.own κ p = .none) : S.names p = 0 ∧ p ∉ S.nodes := by
  obtain ⟨-, -, hc⟩ := Space.own_eq_none_iff.mp hp
  refine ⟨by unfold Space.count at hc; omega, fun hx => ?_⟩
  have := H.count_node hx
  omega

theorem kernel_held {p : Word} (hp : p ∈ κ.frames) : Held (S.own κ) p := by
  obtain h | h := Finset.mem_union.mp hp
  · exact Space.held_iff.mpr (Or.inl h)
  · have := H.kernelCounted p h
    refine Space.held_iff.mpr (Or.inr (Or.inr ?_))
    unfold Space.count
    omega

theorem not_kernel_of_free {p : Word} (hp : S.own κ p = .none) : p ∉ κ.frames :=
  fun h => H.kernel_held h hp

/-- The single-reference clause at either level. -/
theorem single {x : Word} {i : Nat} (hx : x ∈ S.nodes) (hi : i < 1024)
    (hp : priv (S.ent x i) = true) (hw : writable (S.ent x i) = true) :
    S.count (frame (S.ent x i)) = 1 := by
  obtain hd | ht := Space.mem_nodes.mp hx
  · exact (H.dirEntry x hd i hi).single hp hw
  · exact (H.tableEntry x ht i hi).single hp hw

/-- A frame that a read-only entry names is named by no writable one. -/
theorem readOnly_of_readOnly {x y : Word} {i j : Nat} (hx : x ∈ S.nodes) (hi : i < 1024)
    (hp : priv (S.ent x i) = true) (hw : writable (S.ent x i) = false)
    (hy : y ∈ S.nodes) (hj : j < 1024) (hq : priv (S.ent y j) = true)
    (he : frame (S.ent y j) = frame (S.ent x i)) : writable (S.ent y j) = false := by
  by_contra hne
  have hyw : writable (S.ent y j) = true := by simpa using hne
  obtain ⟨rfl, rfl⟩ := Space.only hy hj hq (H.single hy hj hq hyw) hx hi hp he.symm
  rw [hw] at hyw
  exact absurd hyw (by simp)

end facts

/-! ## The moves keep the shape

What an operation does to the tables is a sequence of moves on the space, each with its
precondition: a reference in hand to what an entry is going to name, no entry left that names what
goes. The operations never argue about the shape as a whole, only about the preconditions of the
moves that they make. -/

theorem give (H : Shape κ b S) {p : Word} (hr : p ∉ κ.raw) (hd : p ∉ S.dying)
    (hro : ∀ x ∈ S.nodes, ∀ i, i < 1024 → priv (S.ent x i) = true → frame (S.ent x i) = p →
      writable (S.ent x i) = false) : Shape κ b (S.give p) := by
  have hc : ∀ q, q ≠ p → (S.give p).count q = S.count q := fun q hq => by
    rw [Space.count_give, if_neg hq, Nat.add_zero]
  have hone : ∀ x ∈ S.nodes, ∀ i, i < 1024 → priv (S.ent x i) = true →
      writable (S.ent x i) = true → (S.give p).count (frame (S.ent x i)) = 1 := by
    intro x hx i hi hpr hw
    rw [hc]
    · exact H.single hx hi hpr hw
    · intro hf
      rw [hro x hx i hi hpr hf] at hw
      exact absurd hw (by simp)
  refine
    { disj := H.disj
      held := fun t ht => ?_
      still := fun q hq => ?_
      dyingRaw := H.dyingRaw
      kernelNodes := H.kernelNodes
      kernelCounted := fun q hq => ?_
      dirEntry := fun d hd i hi => ?_
      tableEntry := fun t ht j hj => ?_ }
  · have := H.held t ht
    rw [Space.count_give]
    omega
  · have hqp : q ≠ p := by
      rintro rfl
      exact hq.elim hr hd
    rw [hc q hqp]
    exact H.still q hq
  · have := H.kernelCounted q hq
    by_cases hqp : q = p
    · rw [hqp, Space.give_extra_self]
      omega
    · rw [Space.give_extra_ne hqp]
      exact this
  · have E := H.dirEntry d hd i hi
    exact { E with single := hone d (Space.mem_nodes.mpr (Or.inl hd)) i hi }
  · have E := H.tableEntry t ht j hj
    exact { E with single := hone t (Space.mem_nodes.mpr (Or.inr ht)) j hj }

theorem take (H : Shape κ b S) {p : Word} (hp : 0 < S.extra p) (ht : p ∈ S.tables → 1 < S.count p)
    (hk : p ∉ κ.counted) : Shape κ b (S.take p) := by
  have hc := Space.count_take hp
  have hone : ∀ x ∈ S.nodes, ∀ i, i < 1024 → priv (S.ent x i) = true →
      writable (S.ent x i) = true → (S.take p).count (frame (S.ent x i)) = 1 := by
    intro x hx i hi hpr hw
    have h1 := H.single hx hi hpr hw
    have hne : frame (S.ent x i) ≠ p := by
      intro hf
      have := Space.extra_zero hx hi hpr h1
      rw [hf] at this
      omega
    have := hc (frame (S.ent x i))
    rw [if_neg hne] at this
    omega
  refine
    { disj := H.disj
      held := fun t htt => ?_
      still := fun q hq => ?_
      dyingRaw := H.dyingRaw
      kernelNodes := H.kernelNodes
      kernelCounted := fun q hq => ?_
      dirEntry := fun d hd i hi => ?_
      tableEntry := fun t ht j hj => ?_ }
  · have h0 := H.held t htt
    have h1 := hc t
    by_cases htp : t = p
    · rw [htp] at htt h1 ⊢
      have := ht htt
      rw [if_pos rfl] at h1
      omega
    · rw [if_neg htp] at h1
      omega
  · have h0 := H.still q hq
    have h1 := hc q
    omega
  · have hqp : q ≠ p := by rintro rfl; exact hk hq
    rw [Space.take_extra_ne hqp]
    exact H.kernelCounted q hq
  · have E := H.dirEntry d hd i hi
    exact { E with single := hone d (Space.mem_nodes.mpr (Or.inl hd)) i hi }
  · have E := H.tableEntry t ht j hj
    exact { E with single := hone t (Space.mem_nodes.mpr (Or.inr ht)) j hj }

theorem put (H : Shape κ b S) {x e : Word} {i : Nat} (hx : x ∈ S.nodes) (hi : i < 1024)
    (he : ∀ q, refOf e = some q → 0 < S.extra q ∨ S.ref x i = some q)
    (hdir : x ∈ S.dirs → DirEntry κ b S i e)
    (htab : x ∈ S.tables → TableEntry κ b S (S.home x) i e)
    (hw : x ∈ S.tables → priv e = true → writable e = true → ∀ d ∈ S.dirs, ∀ k, k < 1024 →
      priv (S.ent d k) = true → frame (S.ent d k) = x → writable (S.ent d k) = true)
    (hk : ∀ q ∈ κ.counted, refOf e ≠ some q) :
    Shape κ b (S.put x i e) := by
  have hc := Space.count_put hx hi he
  refine
    { disj := H.disj
      held := fun t ht => by rw [hc]; exact H.held t ht
      still := fun q hq => by rw [hc]; exact H.still q hq
      dyingRaw := H.dyingRaw
      kernelNodes := H.kernelNodes
      kernelCounted := fun q hq => ?_
      dirEntry := fun d hd k hk => ?_
      tableEntry := fun t ht j hj => ?_ }
  · have := H.kernelCounted q hq
    rw [Space.put_extra, if_neg (hk q hq)]
    omega
  · -- entry `k` of `d`, old or new, and then its table
    have E : DirEntry κ b S k ((S.put x i e).ent d k) := by
      by_cases hdx : d = x
      · by_cases hki : k = i
        · rw [hdx, hki, Space.put_ent_self]
          exact hdir (hdx ▸ hd)
        · rw [hdx, Space.put_ent_other hki]
          exact H.dirEntry x (hdx ▸ hd) k hk
      · rw [Space.put_ent_ne hdx]
        exact H.dirEntry d hd k hk
    refine { E with single := fun hp hwr => ?_, shared := fun hp hwr j hj => ?_ }
    · rw [hc]
      exact E.single hp hwr
    · have htt := E.table hp
      by_cases hfx : frame ((S.put x i e).ent d k) = x
      · have hxt : x ∈ S.tables := hfx ▸ htt
        have hdx : d ≠ x := by
          rintro rfl
          exact H.disj d hd hxt
        have hsh := E.shared hp hwr j hj
        rw [hfx] at hsh ⊢
        by_cases hji : j = i
        · rw [hji, Space.put_ent_self]
          intro hpe
          by_contra hne
          have hwe : writable e = true := by simpa using hne
          rw [Space.put_ent_ne hdx] at hp hwr hfx
          rw [hw hxt hpe hwe d hd k hk hp hfx] at hwr
          exact absurd hwr (by simp)
        · rw [Space.put_ent_other hji]
          exact hsh
      · rw [Space.put_ent_ne hfx]
        exact E.shared hp hwr j hj
  · have E : TableEntry κ b S (S.home t) j ((S.put x i e).ent t j) := by
      by_cases htx : t = x
      · by_cases hji : j = i
        · rw [htx, hji, Space.put_ent_self]
          exact htab (htx ▸ ht)
        · rw [htx, Space.put_ent_other hji]
          exact H.tableEntry x (htx ▸ ht) j hj
      · rw [Space.put_ent_ne htx]
        exact H.tableEntry t ht j hj
    exact { E with single := fun hp hwr => by rw [hc]; exact E.single hp hwr }

theorem addTable (H : Shape κ b S) {t : Word} {i : Nat} (ht : t ∉ S.nodes) (hn : S.names t = 0)
    (he : 0 < S.extra t) (hk : t ∉ κ.frames) : Shape κ b (S.addTable κ t i) := by
  have hc := @Space.count_addTable κ S t i ht
  have hne : ∀ x ∈ S.nodes, x ≠ t := fun x hx => by rintro rfl; exact ht hx
  have hfr : ∀ x ∈ S.nodes, ∀ k, k < 1024 → priv (S.ent x k) = true → frame (S.ent x k) ≠ t := by
    intro x hx k hk hp hf
    have := Space.names_pos_of_ent hx hk hp
    rw [hf] at this
    omega
  refine
    { disj := fun d hd hdt => ?_
      held := fun u hu => ?_
      still := fun q hq => by rw [hc]; exact H.still q hq
      dyingRaw := H.dyingRaw
      kernelNodes := fun x hx => ?_
      kernelCounted := H.kernelCounted
      dirEntry := fun d hd k hk => ?_
      tableEntry := fun u hu j hj => ?_ }
  · obtain rfl | h := Finset.mem_insert.mp hdt
    · exact ht (Space.mem_nodes.mpr (Or.inl hd))
    · exact H.disj d hd h
  · rw [hc]
    obtain rfl | h := Finset.mem_insert.mp hu
    · unfold Space.count
      omega
    · exact H.held u h
  · rw [Space.addTable_nodes] at hx
    obtain rfl | h := Finset.mem_insert.mp hx
    · exact hk
    · exact H.kernelNodes x h
  · have hdn : d ∈ S.nodes := Space.mem_nodes.mpr (Or.inl hd)
    have E := H.dirEntry d hd k hk
    rw [Space.addTable_ent_ne (hne d hdn)]
    refine { E with
      table := fun hp => Finset.mem_insert_of_mem (E.table hp)
      home := fun hp => ?_
      single := fun hp hw => by rw [hc]; exact E.single hp hw
      shared := fun hp hw j hj => ?_ }
    · rw [Space.addTable_home_ne (hfr d hdn k hk hp)]
      exact E.home hp
    · rw [Space.addTable_ent_ne (hfr d hdn k hk hp)]
      exact E.shared hp hw j hj
  · by_cases hut : u = t
    · rw [hut, Space.addTable_ent_self, Space.addTable_home_self]
      exact κ.tableEntry b _ i j
    · have hu' : u ∈ S.tables := (Finset.mem_insert.mp hu).resolve_left hut
      have E := H.tableEntry u hu' j hj
      rw [Space.addTable_ent_ne hut, Space.addTable_home_ne hut]
      refine { E with
        page := fun hp => ?_
        single := fun hp hw => by rw [hc]; exact E.single hp hw }
      rw [Space.addTable_nodes, Finset.mem_insert, not_or]
      exact ⟨hfr u (Space.mem_nodes.mpr (Or.inr hu')) j hj hp, E.page hp⟩

theorem addDir (H : Shape κ b S) {d : Word} (hd : d ∉ S.nodes) (hn : S.names d = 0)
    (he : 0 < S.extra d) (hk : d ∉ κ.frames) : Shape κ b (S.addDir κ d) := by
  have hc := @Space.count_addDir κ S d hd he
  have hne : ∀ x ∈ S.nodes, x ≠ d := fun x hx => by rintro rfl; exact hd hx
  have hfr : ∀ x ∈ S.nodes, ∀ k, k < 1024 → priv (S.ent x k) = true → frame (S.ent x k) ≠ d := by
    intro x hx k hk hp hf
    have := Space.names_pos_of_ent hx hk hp
    rw [hf] at this
    omega
  refine
    { disj := fun c hc hct => ?_
      held := fun u hu => by rw [hc]; exact H.held u hu
      still := fun q hq => by rw [hc]; exact H.still q hq
      dyingRaw := H.dyingRaw
      kernelNodes := fun x hx => ?_
      kernelCounted := fun q hq => ?_
      dirEntry := fun c hc' k hk => ?_
      tableEntry := fun u hu j hj => ?_ }
  · obtain rfl | h := Finset.mem_insert.mp hc
    · exact hd (Space.mem_nodes.mpr (Or.inr hct))
    · exact H.disj c h hct
  · rw [Space.addDir_nodes] at hx
    obtain rfl | h := Finset.mem_insert.mp hx
    · exact hk
    · exact H.kernelNodes x h
  · have hqd : q ≠ d := by
      rintro rfl
      exact hk (Finset.mem_union_right _ hq)
    rw [Space.addDir_extra_ne hqd]
    exact H.kernelCounted q hq
  · by_cases hcd : c = d
    · rw [hcd, Space.addDir_ent_self]
      have hpr := κ.pde_priv k
      exact {
        kernel := fun _ => rfl
        table := fun hp => absurd hp (by simp [hpr])
        home := fun hp => absurd hp (by simp [hpr])
        user := fun hp => absurd hp (by simp [hpr])
        mixed := fun hp => absurd hp (by simp [hpr])
        mixedWritable := fun _ hp => absurd hp (by simp [hpr])
        single := fun hp => absurd hp (by simp [hpr])
        shared := fun hp => absurd hp (by simp [hpr]) }
    · have hc'' : c ∈ S.dirs := (Finset.mem_insert.mp hc').resolve_left hcd
      have hcn : c ∈ S.nodes := Space.mem_nodes.mpr (Or.inl hc'')
      have E := H.dirEntry c hc'' k hk
      rw [Space.addDir_ent_ne hcd]
      refine { E with
        single := fun hp hw => by rw [hc]; exact E.single hp hw
        shared := fun hp hw j hj => ?_ }
      rw [Space.addDir_ent_ne (hfr c hcn k hk hp)]
      exact E.shared hp hw j hj
  · have hun : u ∈ S.nodes := Space.mem_nodes.mpr (Or.inr hu)
    have E := H.tableEntry u hu j hj
    rw [Space.addDir_ent_ne (hne u hun)]
    refine { E with
      page := fun hp => ?_
      single := fun hp hw => by rw [hc]; exact E.single hp hw }
    rw [Space.addDir_nodes, Finset.mem_insert, not_or]
    exact ⟨hfr u hun j hj hp, E.page hp⟩

theorem dropDir (H : Shape κ b S) {d : Word} (hd : d ∈ S.dirs) : Shape κ b (S.dropDir d) := by
  have hdt := H.disj d hd
  have hc := Space.count_dropDir hd hdt
  have hsub : ∀ x ∈ (S.dropDir d).nodes, x ∈ S.nodes := fun x hx => by
    rw [Space.dropDir_nodes hdt] at hx
    exact Finset.mem_of_mem_erase hx
  refine
    { disj := fun c hc => H.disj c (Finset.mem_of_mem_erase hc)
      held := fun u hu => by rw [hc]; exact H.held u hu
      still := fun q hq => by rw [hc]; exact H.still q hq
      dyingRaw := H.dyingRaw
      kernelNodes := fun x hx => H.kernelNodes x (hsub x hx)
      kernelCounted := fun q hq => ?_
      dirEntry := fun c hc' k hk => ?_
      tableEntry := fun u hu j hj => ?_ }
  · have := H.kernelCounted q hq
    rw [Space.dropDir_extra]
    omega
  · have E := H.dirEntry c (Finset.mem_of_mem_erase hc') k hk
    exact { E with single := fun hp hw => by rw [hc]; exact E.single hp hw }
  · have E := H.tableEntry u hu j hj
    exact { E with
      page := fun hp hx => E.page hp (hsub _ hx)
      single := fun hp hw => by rw [hc]; exact E.single hp hw }

theorem kill (H : Shape κ b S) {t : Word} (ht : t ∈ S.tables) (hn : S.names t = 0) :
    Shape κ b (S.kill t) := by
  have htd : t ∉ S.dirs := fun h => H.disj t h ht
  have htn : t ∈ S.nodes := Space.mem_nodes.mpr (Or.inr ht)
  have hc : ∀ q, q ≠ t → (S.kill t).count q = S.count q := fun q hq => by
    rw [Space.count_kill ht htd hn, if_neg hq]
  have hfr : ∀ x ∈ S.nodes, ∀ k, k < 1024 → priv (S.ent x k) = true → frame (S.ent x k) ≠ t := by
    intro x hx k hk hp hf
    have := Space.names_pos_of_ent hx hk hp
    rw [hf] at this
    omega
  have hsub : ∀ x ∈ (S.kill t).nodes, x ∈ S.nodes := fun x hx => by
    rw [Space.kill_nodes htd] at hx
    exact Finset.mem_of_mem_erase hx
  refine
    { disj := fun c hc hct => H.disj c hc (Finset.mem_of_mem_erase hct)
      held := fun u hu => ?_
      still := fun q hq => ?_
      dyingRaw := fun q hq => ?_
      kernelNodes := fun x hx => H.kernelNodes x (hsub x hx)
      kernelCounted := fun q hq => ?_
      dirEntry := fun c hc' k hk => ?_
      tableEntry := fun u hu j hj => ?_ }
  · obtain ⟨hut, hu'⟩ := Finset.mem_erase.mp hu
    rw [hc u hut]
    exact H.held u hu'
  · by_cases hqt : q = t
    · rw [hqt, Space.count_kill ht htd hn, if_pos rfl]
    · rw [hc q hqt]
      refine H.still q (hq.imp id fun hq' => ?_)
      exact (Finset.mem_insert.mp hq').resolve_left hqt
  · obtain rfl | h := Finset.mem_insert.mp hq
    · exact H.not_raw (H.held q ht)
    · exact H.dyingRaw q h
  · have hqt : q ≠ t := by
      rintro rfl
      exact H.kernelNodes q htn (Finset.mem_union_right _ hq)
    have := H.kernelCounted q hq
    rw [Space.kill_extra, Function.update_of_ne hqt]
    omega
  · have hcn : c ∈ S.nodes := Space.mem_nodes.mpr (Or.inl hc')
    have E := H.dirEntry c hc' k hk
    exact { E with
      table := fun hp => Finset.mem_erase.mpr ⟨hfr c hcn k hk hp, E.table hp⟩
      single := fun hp hw => (hc _ (hfr c hcn k hk hp)).trans (E.single hp hw) }
  · have hu' : u ∈ S.tables := Finset.mem_of_mem_erase hu
    have hun : u ∈ S.nodes := Space.mem_nodes.mpr (Or.inr hu')
    have E := H.tableEntry u hu' j hj
    exact { E with
      page := fun hp hx => E.page hp (hsub _ hx)
      single := fun hp hw => (hc _ (hfr u hun j hj hp)).trans (E.single hp hw) }

theorem bury (H : Shape κ b S) (t : Word) : Shape κ b (S.bury t) :=
  { disj := H.disj
    held := H.held
    still := fun q hq => H.still q (hq.imp id fun h => Finset.mem_of_mem_erase h)
    dyingRaw := fun q hq => H.dyingRaw q (Finset.mem_of_mem_erase hq)
    kernelNodes := H.kernelNodes
    kernelCounted := H.kernelCounted
    dirEntry := fun d hd i hi => { H.dirEntry d hd i hi with }
    tableEntry := fun u hu j hj => { H.tableEntry u hu j hj with } }

end Shape

end OsKernel.Vmm
