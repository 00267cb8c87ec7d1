import OsKernel.Vmm.Copy

/-!
# What a directory shows

`S.pte κ d i j` is the entry by which the directory `d` translates page `j` of its slot `i`,
and `S.data κ s d i j` is what the process finds there: the page, or zeros where it has none
yet. The operations of `vmm.cc` are specified by what they do to these two, for every live
directory.

That a page not yet there is zeros is the one thing in `data` that the tables do not say. The
handler supplies a zeroed frame on the first access, so a process cannot tell such a page from
one that it has always had, and the definition makes the two the same. With it a page fault
that maps a page changes nobody's data, which is how it is stated in `Vmm/Fault.lean`.

Most operations replace a table: the new one is filled, and then one store into the directory
makes it visible. `Space.install` is that change, and the lemmas about it say that no
directory shows anything else afterwards, if the new table has the entries that were shown
before. `Agrees.install` is the same for memory. Copying, faulting and forking use these and
do not go into the tables again.

Indices, not addresses: `i` and `j` are below 1024, and the address is `pageAt i j`
(`Vmm/Boot.lean`). The conversions are done at the edge, where an operation gets an address as
an argument.
-/

set_option autoImplicit false

namespace OsKernel.Vmm

open Lib Lib.Prog K PhysMem

namespace Space

variable {κ : KernelMap} {S S' : Space}

/-- The table entry for page `j` of slot `i`: of the private table, or of the kernel's. -/
def pte (S : Space) (κ : KernelMap) (d : Word) (i j : Nat) : Word :=
  if priv (S.ent d i) then S.ent (frame (S.ent d i)) j else κ.pte i j

theorem pte_of_priv {d : Word} {i : Nat} (h : priv (S.ent d i) = true) (j : Nat) :
    S.pte κ d i j = S.ent (frame (S.ent d i)) j := if_pos h

theorem pte_of_not_priv {d : Word} {i : Nat} (h : priv (S.ent d i) = false) (j : Nat) :
    S.pte κ d i j = κ.pte i j := if_neg (by rw [h]; simp)

theorem pte_congr {d : Word} {i j : Nat} (he : S'.ent d i = S.ent d i)
    (ht : priv (S.ent d i) = true → S'.ent (frame (S.ent d i)) j = S.ent (frame (S.ent d i)) j) :
    S'.pte κ d i j = S.pte κ d i j := by
  unfold pte
  rw [he]
  split
  · rename_i hp
    exact ht hp
  · rfl

theorem pte_of_ent_eq (h : S'.ent = S.ent) (d : Word) (i j : Nat) :
    S'.pte κ d i j = S.pte κ d i j := by
  unfold pte
  rw [h]

/-- What the process with directory `d` finds at page `j` of slot `i`. -/
def data (S : Space) (κ : KernelMap) (s : Machine) (d : Word) (i j : Nat) : Nat → Word :=
  if priv (S.pte κ d i j) then s.mem (frame (S.pte κ d i j)) else fun _ => 0#32

theorem data_of_pte {s s' : Machine} {d d' : Word} {i j : Nat}
    (he : S'.pte κ d' i j = S.pte κ d i j)
    (hm : priv (S.pte κ d i j) = true →
      s'.mem (frame (S.pte κ d i j)) = s.mem (frame (S.pte κ d i j))) :
    S'.data κ s' d' i j = S.data κ s d i j := by
  unfold data
  rw [he]
  split
  · rename_i hp
    exact hm hp
  · rfl

end Space

variable {κ : KernelMap} {b : Prop} {s : Machine} {S : Space} {n : Nat}
  {a : Word → Word → Prop} {d : Word} {i j : Nat}

namespace Shape

/-- The entry that `pte` finds obeys the rules of table entries. -/
theorem pteEntry (H : Shape κ b S) (hd : d ∈ S.dirs) (hi : i < 1024) (hj : j < 1024) :
    TableEntry κ b S i j (S.pte κ d i j) := by
  have E := H.dirEntry d hd i hi
  by_cases hp : priv (S.ent d i) = true
  · rw [Space.pte_of_priv hp]
    have := H.tableEntry _ (E.table hp) j hj
    rw [E.home hp] at this
    exact this
  · rw [Space.pte_of_not_priv (by simpa using hp)]
    exact κ.tableEntry b S i j

/-- A private page is reached through a private table. -/
theorem priv_of_pte (hp : priv (S.pte κ d i j) = true) : priv (S.ent d i) = true := by
  by_contra hn
  rw [Space.pte_of_not_priv (by simpa using hn), κ.pte_priv] at hp
  exact absurd hp (by simp)

/-- A page that a directory shows is named. -/
theorem names_pte (H : Shape κ b S) (hd : d ∈ S.dirs) (hi : i < 1024) (hj : j < 1024)
    (hp : priv (S.pte κ d i j) = true) : 0 < S.names (frame (S.pte κ d i j)) := by
  have hpd := priv_of_pte hp
  rw [Space.pte_of_priv hpd] at hp ⊢
  exact Space.names_pos_of_ent
    (Space.mem_nodes.mpr (Or.inr ((H.dirEntry d hd i hi).table hpd))) hj hp

theorem held_pte (H : Shape κ b S) (hd : d ∈ S.dirs) (hi : i < 1024) (hj : j < 1024)
    (hp : priv (S.pte κ d i j) = true) : Held (S.own κ) (frame (S.pte κ d i j)) := by
  have := H.names_pte hd hi hj hp
  refine Space.held_iff.mpr (Or.inr (Or.inr ?_))
  unfold Space.count
  omega

/-- A page behind a read-only directory entry is read-only. -/
theorem readOnly_pte (H : Shape κ b S) (hd : d ∈ S.dirs) (hi : i < 1024) (hj : j < 1024)
    (hp : priv (S.pte κ d i j) = true) (hw : writable (S.ent d i) = false) :
    writable (S.pte κ d i j) = false := by
  have hpd := priv_of_pte hp
  rw [Space.pte_of_priv hpd] at hp ⊢
  exact (H.dirEntry d hd i hi).shared hpd hw j hj hp

/-- The pages a directory shows are not overwritten by an operation that keeps what is held before
and after it. -/
theorem data_eq (H : Shape κ b S) {S' : Space} {s' : Machine} (H' : Shape κ b S')
    (hd : d ∈ S.dirs) (hd' : d ∈ S'.dirs) (hi : i < 1024) (hj : j < 1024)
    (he : S'.pte κ d i j = S.pte κ d i j)
    (hm : ∀ q, q ∉ S.nodes → Held (S.own κ) q → Held (S'.own κ) q → s'.mem q = s.mem q) :
    S'.data κ s' d i j = S.data κ s d i j := by
  refine Space.data_of_pte he fun hp => hm _ ((H.pteEntry hd hi hj).page hp)
    (H.held_pte hd hi hj hp) ?_
  have := H'.held_pte hd' hi hj (by rw [he]; exact hp)
  rw [he] at this
  exact this

end Shape

/-- No page behind slot `k` of `d` is writable. -/
def SlotReadOnly (S : Space) (d : Word) (k : Nat) : Prop :=
  priv (S.ent d k) = true → ∀ j, j < 1024 → priv (S.ent (frame (S.ent d k)) j) = true →
    writable (S.ent (frame (S.ent d k)) j) = false

/-- The table a directory shows at a slot without writable pages may be copied. -/
theorem Shape.sharable_pte (H : Shape κ b S) (hd : d ∈ S.dirs) (hi : i < 1024)
    (hs : SlotReadOnly S d i) : Sharable κ b S i (S.pte κ d i) := by
  intro j hj
  refine ⟨H.pteEntry hd hi hj, fun hp => ?_⟩
  have hpd := Shape.priv_of_pte hp
  rw [Space.pte_of_priv hpd] at hp ⊢
  have hro := hs hpd j hj hp
  exact ⟨hro, _, Space.mem_nodes.mpr (Or.inr ((H.dirEntry d hd i hi).table hpd)), j, hj, hp, hro,
    rfl⟩

/-! ## A new table in a directory

Before a page is stored, the directory may get a table of its own, with the entries that it showed
already. Nobody's view changes by that, not even the directory's own; what changes is whose table
the slot names, and a reference or two. -/

/-- Slot `i` of `d` gets the table `t` with the entries `src`. -/
def Space.install (S : Space) (d : Word) (i : Nat) (t : Word) (src : Nat → Word) (e : Word) :
    Space :=
  (S.withTable t i src).put d i e

section install

variable {t e : Word} {src : Nat → Word}

theorem Space.install_ent (hd : d ∈ S.nodes) (ht : t ∉ S.nodes) {x : Word} {k : Nat}
    (hx : x ∈ S.nodes) (hxk : ¬ (x = d ∧ k = i)) : (S.install d i t src e).ent x k = S.ent x k := by
  have hdt : d ≠ t := by rintro rfl; exact ht hd
  have hxt : x ≠ t := by rintro rfl; exact ht hx
  unfold install
  by_cases hxd : x = d
  · have hki : k ≠ i := fun h => hxk ⟨hxd, h⟩
    rw [hxd, put_ent_other hki, withTable_ent_ne hdt]
  · rw [put_ent_ne hxd, withTable_ent_ne hxt]

theorem Space.install_ent_self : (S.install d i t src e).ent d i = e := put_ent_self

theorem Space.install_nodes_eq : (S.install d i t src e).nodes = insert t S.nodes :=
  show (S.withTable t i src).nodes = _ from withTable_nodes

theorem Space.install_ent_new (htd : t ≠ d) {k : Nat} : (S.install d i t src e).ent t k = src k := by
  unfold install
  rw [put_ent_ne htd, withTable_ent_self]

theorem Space.count_le_install (ht : t ∉ S.nodes) (hd : d ∈ S.nodes)
    (hi : i < 1024) (hfe : frame e = t) (q : Word) : S.count q ≤ (S.install d i t src e).count q := by
  have hdn : d ∈ (S.withTable t i src).nodes := by
    rw [withTable_nodes]
    exact Finset.mem_insert_of_mem hd
  have hc := count_put (S := S.withTable t i src) hdn hi (e := e) (fun p hp => Or.inl (by
    obtain ⟨-, rfl⟩ := refOf_eq_some.mp hp
    rw [hfe]
    show 0 < Function.update S.extra t (S.extra t + 1) t
    rw [Function.update_self]
    exact Nat.succ_pos _)) q
  unfold install
  rw [hc]
  exact count_le_withTable i ht src q

/-- The view of every directory is as before if the new table has the entries that were shown. -/
theorem Space.pte_install (H : Shape κ b S) (hd : d ∈ S.dirs) (ht : t ∉ S.nodes)
    (hfe : frame e = t) (hpe : priv e = true)
    (hsrc : ∀ j, j < 1024 → src j = S.pte κ d i j) {x : Word} {k l : Nat} (hx : x ∈ S.dirs)
    (hk : k < 1024) (hl : l < 1024) : (S.install d i t src e).pte κ x k l = S.pte κ x k l := by
  have hdn : d ∈ S.nodes := mem_nodes.mpr (Or.inl hd)
  have hdt : t ≠ d := by rintro rfl; exact ht hdn
  have hxn : x ∈ S.nodes := mem_nodes.mpr (Or.inl hx)
  by_cases hxk : x = d ∧ k = i
  · obtain ⟨rfl, rfl⟩ := hxk
    rw [pte_of_priv (by rw [install_ent_self]; exact hpe), install_ent_self, hfe, ← hsrc l hl]
    unfold install
    rw [put_ent_ne hdt, withTable_ent_self]
  · have hent : (S.install d i t src e).ent x k = S.ent x k := install_ent hdn ht hxn hxk
    refine pte_congr hent fun hp => ?_
    have htab := (H.dirEntry x hx k hk).table hp
    have hft : frame (S.ent x k) ≠ t := by
      rintro hf
      exact ht (mem_nodes.mpr (Or.inr (hf ▸ htab)))
    have hfd : frame (S.ent x k) ≠ d := by
      rintro hf
      exact H.disj d hd (hf ▸ htab)
    unfold install
    rw [put_ent_ne hfd, withTable_ent_ne hft]

/-- The new table is the only new node, and what it names was named before. -/
theorem Space.install_named (H : Shape κ b S) (hd : d ∈ S.dirs) (hi : i < 1024) (ht : t ∉ S.nodes)
    (hfe : frame e = t) (hsrc : ∀ j, j < 1024 → src j = S.pte κ d i j) {q : Word}
    (hq : 0 < (S.install d i t src e).names q) : 0 < S.names q ∨ q = t := by
  have hdn : d ∈ S.nodes := mem_nodes.mpr (Or.inl hd)
  have hdt : t ≠ d := by rintro rfl; exact ht hdn
  obtain hqd | ⟨x, hx, k, hk, hp, hf⟩ := names_pos_iff.mp hq
  · exact Or.inl (names_pos_of_dir hqd)
  by_cases hxk : x = d ∧ k = i
  · obtain ⟨rfl, rfl⟩ := hxk
    rw [install_ent_self, hfe] at hf
    exact Or.inr hf.symm
  by_cases hxt : x = t
  · have hent : (S.install d i t src e).ent t k = src k := by
      unfold install
      rw [put_ent_ne hdt, withTable_ent_self]
    rw [hxt, hent, hsrc k hk] at hp hf
    rw [← hf]
    exact Or.inl (H.names_pte hd hi hk hp)
  · have hxn : x ∈ S.nodes := by
      have : x ∈ (S.withTable t i src).nodes := hx
      rw [withTable_nodes] at this
      exact (Finset.mem_insert.mp this).resolve_left hxt
    rw [install_ent hdn ht hxn hxk] at hp hf
    rw [← hf]
    exact Or.inl (names_pos_of_ent hxn hk hp)

theorem Space.install_extra (hfe : frame e = t) (hpe : priv e = true) (ht : t ∉ S.nodes)
    (hd : d ∈ S.nodes) (q : Word) : (S.install d i t src e).extra q =
      S.extra q + if S.ref d i = some q then 1 else 0 := by
  have hdt : d ≠ t := by rintro rfl; exact ht hd
  have hr : (S.withTable t i src).ref d i = S.ref d i := by
    unfold ref
    rw [withTable_ent_ne hdt]
  have hw : (S.withTable t i src).extra q = S.extra q + if q = t then 1 else 0 := by
    show Function.update S.extra t (S.extra t + 1) q = _
    by_cases hq : q = t
    · rw [hq, Function.update_self, if_pos rfl]
    · rw [Function.update_of_ne hq, if_neg hq, Nat.add_zero]
  have he : refOf e = some t := refOf_eq_some.mpr ⟨hpe, hfe⟩
  have hiff : (if refOf e = some q then 1 else 0) = if q = t then 1 else 0 :=
    if_congr (by rw [he, Option.some.injEq, eq_comm]) rfl rfl
  unfold install
  rw [put_extra, hr, hw, hiff]
  omega

/-- The frame of a table just filled has one reference, the one in hand. -/
theorem Space.count_withTable_self (hc : S.count t = 0) (ht : t ∉ S.nodes)
    (hsrc : ∀ j, j < 1024 → priv (src j) = true → frame (src j) ≠ t) :
    (S.withTable t i src).count t = 1 := by
  have hn : (S.withTable t i src).names t = 0 := by
    by_contra hne
    obtain hd | ⟨x, hx, k, hk, hp, hf⟩ := names_pos_iff.mp (Nat.pos_of_ne_zero hne)
    · exact ht (mem_nodes.mpr (Or.inl hd))
    · by_cases hxt : x = t
      · rw [hxt, withTable_ent_self] at hp hf
        exact hsrc k hk hp hf
      · rw [withTable_ent_ne hxt] at hp hf
        rw [withTable_nodes] at hx
        have := names_pos_of_ent ((Finset.mem_insert.mp hx).resolve_left hxt) hk hp
        rw [hf] at this
        unfold count at hc
        omega
  have hx : (S.withTable t i src).extra t = S.extra t + 1 := Function.update_self ..
  unfold count at hc ⊢
  omega

theorem Sound.install (H : Shape κ b S) (h : Sound κ b s (S.withTable t i src) n a)
    (hfree : S.own κ t = .none) (hd : d ∈ S.dirs) (hi : i < 1024)
    (hsrc : ∀ j, j < 1024 → priv (src j) = true → frame (src j) ≠ t) (hfe : frame e = t)
    (hpe : priv e = true) (hw : writable e = true) (hu : user e = true)
    (hm : global e = true ↔ κ.pde i ≠ 0#32) : Sound κ b s (S.install d i t src e) n a := by
  obtain ⟨-, ht⟩ := H.unnamed_of_free hfree
  have htk := H.not_kernel_of_free hfree
  have hc1 := Space.count_withTable_self (i := i) (Space.own_eq_none_iff.mp hfree).2.2 ht hsrc
  have hdt : d ∉ insert t S.tables := by
    rw [Finset.mem_insert, not_or]
    exact ⟨by rintro rfl; exact ht (Space.mem_nodes.mpr (Or.inl hd)), H.disj d hd⟩
  refine h.put (Space.mem_nodes.mpr (Or.inl hd)) hi (fun q hq => Or.inl ?_) (fun _ => ?_)
    (fun hdt' => absurd hdt' hdt) (fun hdt' => absurd hdt' hdt) (fun q hq hr => ?_)
  · obtain ⟨-, rfl⟩ := refOf_eq_some.mp hq
    rw [hfe]
    show 0 < Function.update S.extra t (S.extra t + 1) t
    rw [Function.update_self]
    omega
  · exact {
      kernel := fun hp => by rw [hpe] at hp; exact absurd hp (by simp)
      table := fun _ => by rw [hfe]; exact Finset.mem_insert_self t _
      home := fun _ => by rw [hfe]; exact Space.withTable_home_self
      user := fun _ => hu
      mixed := fun _ => hm
      mixedWritable := fun _ _ _ => hw
      single := fun _ _ => by rw [hfe]; exact hc1
      shared := fun _ hro => by rw [hw] at hro; exact absurd hro (by simp) }
  · obtain ⟨-, rfl⟩ := refOf_eq_some.mp hr
    rw [hfe] at hq
    exact htk (Finset.mem_union_right _ hq)

/-- Memory after the new table has been filled and its directory entry stored. -/
theorem Agrees.install {s₁ : Machine} (H : Shape κ b S) (hA : Agrees s S)
    (k₁ : Kept (Held (S.own κ)) s s₁) (hd : d ∈ S.dirs) (ht : t ∉ S.nodes)
    (hm : ∀ j, j < 1024 → s₁.mem t j = src j) :
    Agrees (s₁.put d i e) (S.install d i t src e) := by
  intro x hx k hk
  have hdt : t ≠ d := by
    rintro rfl
    exact ht (Space.mem_nodes.mpr (Or.inl hd))
  have hx' : x = t ∨ x ∈ S.nodes := by
    have : x ∈ (S.withTable t i src).nodes := hx
    rw [Space.withTable_nodes] at this
    exact Finset.mem_insert.mp this
  show Function.update s₁.mem d (Function.update (s₁.mem d) i e) x k = _
  unfold Space.install
  by_cases hxd : x = d
  · have hdn : d ∈ S.nodes := Space.mem_nodes.mpr (Or.inl hd)
    rw [hxd, Function.update_self]
    by_cases hki : k = i
    · rw [hki, Function.update_self, Space.put_ent_self]
    · rw [Function.update_of_ne hki, Space.put_ent_other hki, Space.withTable_ent_ne (Ne.symm hdt),
        k₁.mem d (H.held_node hdn), hA d hdn k hk]
  · rw [Function.update_of_ne hxd, Space.put_ent_ne hxd]
    by_cases hxt : x = t
    · rw [hxt, Space.withTable_ent_self, hm k hk]
    · have hxn := hx'.resolve_left hxt
      rw [Space.withTable_ent_ne hxt, k₁.mem x (H.held_node hxn), hA x hxn k hk]

end install

/-- Memory after an operation that only takes nodes away. -/
theorem Agrees.kept {S' : Space} {s' : Machine} (hA : Agrees s S) (H' : Shape κ b S')
    (hn : S'.nodes ⊆ S.nodes) (he : S'.ent = S.ent) (k : Kept (Held (S'.own κ)) s s') :
    Agrees s' S' := by
  intro x hx i hi
  rw [k.mem x (H'.held_node hx), he]
  exact hA x (hn hx) i hi

theorem Space.dropTable_nodes (t : Word) : (S.dropTable t).nodes ⊆ S.nodes := by
  intro x hx
  rw [mem_nodes, dropTable_dirs] at hx
  exact mem_nodes.mpr (hx.imp id fun h => dropTable_tables h)

theorem Space.dropTable_names {t q : Word} (h : 0 < (S.dropTable t).names q) : 0 < S.names q := by
  obtain hd | ⟨x, hx, k, hk, hp, hf⟩ := names_pos_iff.mp h
  · rw [dropTable_dirs] at hd
    exact names_pos_of_dir hd
  · rw [dropTable_ent] at hp hf
    rw [← hf]
    exact names_pos_of_ent (dropTable_nodes t hx) hk hp

end OsKernel.Vmm
