import OsKernel.Vmm.View

/-!
# `map`, `map_copy` and the page-fault handler

`ownTable`, the lines `map` and `map_copy` have in common, gives the directory a private table
that nothing else names and changes nobody's view. What follows it is one store into that
table.

So the proofs are cut there. `OwnedTable` is what the first part does, in each of its three
cases: the slot had no table, it had one that is shared or the kernel's, it had one of its
own. `Prepared` is the state in between, with a zeroed frame in hand as well, since the
handler allocates before it calls. `Mapped` is the end of both functions. A client of this
file sees `Mapped`, or one of the ways not to get there.

## How the handler may not return

* It refuses the address or the kind of access and ends the process before it has done
  anything: `Refused`, which depends on the arguments only.
* It finds that the page is there and writable, after it has taken a frame: `Killed`. The
  process ends with that frame in nobody's hand. A process that writes to the local APIC gets
  there; one that writes through a stale translation would, too, if there were stale ones
  (`Vmm/Seen.lean`).
* There is no frame, or a counter is full (`NoTable`): a `Stop` without a successor in
  `Vmm/System.lean`. The reasons are stated with the room that there was, so that four frames
  are enough to exclude the first.

The error code is an argument like the others. The handler tests bits of it and does not
compare them with the tables; what that leads to is in `Vmm/Isolation.lean`.
-/

set_option autoImplicit false

namespace OsKernel.Vmm

open Lib Lib.Prog K PhysMem

variable {κ : KernelMap} {b : Prop} {s : Machine} {S : Space} {n : Nat}
  {a : Word → Word → Prop} {d : Word} {i j : Nat}

/-- The registers that say where things are; the TLB aside. -/
structure SameMap (s s' : Machine) : Prop where
  start : s'.start = s.start
  limit : s'.limit = s.limit
  kpd : s'.kpd = s.kpd
  cr3 : s'.cr3 = s.cr3

theorem SameMap.of_regs {s' : Machine} (h : SameRegs s s') : SameMap s s' :=
  ⟨h.start, h.limit, h.kpd, h.cr3⟩

theorem SameMap.trans {t u : Machine} (h : SameMap s t) (h' : SameMap t u) : SameMap s u :=
  ⟨h'.start.trans h.start, h'.limit.trans h.limit, h'.kpd.trans h.kpd, h'.cr3.trans h.cr3⟩

/-- Nothing changes for anybody except that slot `i` of `d` has a table of its own. -/
structure OwnedTable (κ : KernelMap) (s : Machine) (S : Space) (d : Word) (i : Nat)
    (s' : Machine) (S' : Space) : Prop where
  dirs : S'.dirs = S.dirs
  extra : S'.extra = S.extra
  dying : S'.dying = S.dying
  regs : SameRegs s s'
  mono : s.avail.toNat ≤ s'.avail.toNat
  isPriv : priv (S'.ent d i) = true
  isWritable : writable (S'.ent d i) = true
  nodes : ∀ x ∈ S'.nodes, x ∈ S.nodes ∨ S.own κ x = .none
  named : ∀ q, 0 < S'.names q → 0 < S.names q ∨ S.own κ q = .none
  ent : ∀ x ∈ S.dirs, ∀ k, k < 1024 → ¬ (x = d ∧ k = i) → S'.ent x k = S.ent x k
  pte : ∀ x ∈ S.dirs, ∀ k, k < 1024 → ∀ l, l < 1024 → S'.pte κ x k l = S.pte κ x k l
  mem : ∀ q, q ∉ S.nodes → Held (S.own κ) q → Held (S'.own κ) q → s'.mem q = s.mem q

theorem OwnedTable.data {s' : Machine} {S' : Space} (O : OwnedTable κ s S d i s' S')
    (H : Shape κ b S) (H' : Shape κ b S') {x : Word} {k l : Nat} (hx : x ∈ S.dirs)
    (hk : k < 1024) (hl : l < 1024) : S'.data κ s' x k l = S.data κ s x k l :=
  H.data_eq H' hx (by rw [O.dirs]; exact hx) hk hl (O.pte x hx k hk l hl) O.mem

/-- The directory entry for a new table with the user's flags. -/
theorem mk_uFlags {t l : Word} (ht : Aligned t) (hl : Low l) :
    frame (t ||| l ||| uFlags) = t ∧ priv (t ||| l ||| uFlags) = true ∧
      writable (t ||| l ||| uFlags) = true ∧ user (t ||| l ||| uFlags) = true ∧
      global (t ||| l ||| uFlags) = global l := by
  rw [BitVec.or_assoc]
  have hg : global (t ||| (l ||| uFlags)) = global l := by
    rw [global_mk ht, global_or, global_uFlags, Bool.or_false]
  refine ⟨frame_mk ht (hl.or low_uFlags), ?_, ?_, ?_, hg⟩
  · rw [priv_mk ht]
    unfold priv
    rw [present_or, nonGlobal_or, present_uFlags, nonGlobal_uFlags]
    simp
  · rw [writable_mk ht, writable_or, writable_uFlags, Bool.or_true]
  · rw [user_mk ht, user_or, user_uFlags, Bool.or_true]

theorem Space.install_nodes {t e x : Word} {src : Nat → Word} (hfree : S.own κ t = .none)
    (hx : x ∈ (S.install d i t src e).nodes) : x ∈ S.nodes ∨ S.own κ x = .none := by
  have hx' : x ∈ (S.withTable t i src).nodes := hx
  rw [Space.withTable_nodes] at hx'
  obtain rfl | h := Finset.mem_insert.mp hx'
  · exact Or.inr hfree
  · exact Or.inl h

/-- Slot `i` of `d` has the new table `t`. -/
theorem OwnedTable.install {s₁ : Machine} {t e : Word} {src : Nat → Word} (H : Shape κ b S)
    (k₁ : Kept (Held (S.own κ)) s s₁)
    (hfree : S.own κ t = .none) (hd : d ∈ S.dirs) (hi : i < 1024) (hnp : priv (S.ent d i) = false)
    (hsrc : ∀ j, j < 1024 → src j = S.pte κ d i j) (hfe : frame e = t) (hpe : priv e = true)
    (hwe : writable e = true) :
    OwnedTable κ s S d i (s₁.put d i e) (S.install d i t src e) := by
  obtain ⟨hn, ht⟩ := H.unnamed_of_free hfree
  have hdn : d ∈ S.nodes := Space.mem_nodes.mpr (Or.inl hd)
  have hpte : ∀ x ∈ S.dirs, ∀ k, k < 1024 → ∀ l, l < 1024 →
      (S.install d i t src e).pte κ x k l = S.pte κ x k l := fun x hx k hk l hl =>
    Space.pte_install H hd ht hfe hpe hsrc hx hk hl
  exact {
    dirs := rfl
    extra := by
      funext q
      have hr : S.ref d i = none := refOf_eq_none.mpr hnp
      rw [Space.install_extra hfe hpe ht hdn, hr, if_neg (by simp), Nat.add_zero]
    dying := rfl
    regs := k₁.regs.store _
    mono := k₁.mono
    nodes := fun x hx => Space.install_nodes hfree hx
    named := fun q hq => (Space.install_named H hd hi ht hfe hsrc hq).imp id
      fun h => by rw [h]; exact hfree
    isPriv := by rw [Space.install_ent_self]; exact hpe
    isWritable := by rw [Space.install_ent_self]; exact hwe
    ent := fun x hx k _ hxk => Space.install_ent hdn ht (Space.mem_nodes.mpr (Or.inl hx)) hxk
    pte := hpte
    mem := fun q hq hh _ => by
      have hqd : q ≠ d := by rintro rfl; exact hq hdn
      show Function.update s₁.mem d _ q = _
      rw [Function.update_of_ne hqd, k₁.mem q hh] }

/-- The same with the old table given back. -/
theorem OwnedTable.replace {s₁ s₃ : Machine} {t e : Word} {src : Nat → Word} (H : Shape κ b S)
    (k₁ : Kept (Held (S.own κ)) s s₁)
    (k₃ : Kept (Held (((S.install d i t src e).dropTable (frame (S.ent d i))).own κ))
      (s₁.put d i e) s₃)
    (hfree : S.own κ t = .none) (hd : d ∈ S.dirs) (hi : i < 1024) (hp : priv (S.ent d i) = true)
    (hsrc : ∀ j, j < 1024 → src j = S.pte κ d i j) (hfe : frame e = t) (hpe : priv e = true)
    (hwe : writable e = true) :
    OwnedTable κ s S d i s₃ ((S.install d i t src e).dropTable (frame (S.ent d i))) := by
  obtain ⟨hn, ht⟩ := H.unnamed_of_free hfree
  have hdn : d ∈ S.nodes := Space.mem_nodes.mpr (Or.inl hd)
  have hr : S.ref d i = some (frame (S.ent d i)) := refOf_eq_some.mpr ⟨hp, rfl⟩
  have hpte : ∀ x ∈ S.dirs, ∀ k, k < 1024 → ∀ l, l < 1024 →
      ((S.install d i t src e).dropTable (frame (S.ent d i))).pte κ x k l = S.pte κ x k l := by
    intro x hx k hk l hl
    rw [Space.pte_of_ent_eq Space.dropTable_ent]
    exact Space.pte_install H hd ht hfe hpe hsrc hx hk hl
  exact {
    dirs := Space.dropTable_dirs
    extra := by
      funext q
      have hex := fun q => @Space.install_extra S d i t e src hfe hpe ht hdn q
      rw [Space.dropTable_extra]
      by_cases hq : q = frame (S.ent d i)
      · rw [hq, Function.update_self, hex, hr, if_pos rfl, Nat.add_sub_cancel]
      · rw [Function.update_of_ne hq, hex, hr, if_neg (by simpa using Ne.symm hq), Nat.add_zero]
    dying := Space.dropTable_dying
    regs := (k₁.regs.store _).trans k₃.regs
    mono := k₁.mono.trans k₃.mono
    nodes := fun x hx => Space.install_nodes hfree (Space.dropTable_nodes _ hx)
    named := fun q hq => (Space.install_named H hd hi ht hfe hsrc (Space.dropTable_names hq)).imp id
      fun h => by rw [h]; exact hfree
    isPriv := by rw [Space.dropTable_ent, Space.install_ent_self]; exact hpe
    isWritable := by rw [Space.dropTable_ent, Space.install_ent_self]; exact hwe
    ent := fun x hx k _ hxk => by
      rw [Space.dropTable_ent]
      exact Space.install_ent hdn ht (Space.mem_nodes.mpr (Or.inl hx)) hxk
    pte := hpte
    mem := fun q hq hh hh₃ => by
      have hqd : q ≠ d := by rintro rfl; exact hq hdn
      rw [k₃.mem q hh₃]
      show Function.update s₁.mem d _ q = _
      rw [Function.update_of_ne hqd, k₁.mem q hh] }

/-- The store of the new directory entry. -/
theorem Sound.installed (h : Sound κ b s S n a) (hA : Agrees s S) {s₁ : Machine} {m : Nat}
    {t e : Word} {src : Nat → Word} (h₁ : Sound κ b s₁ (S.withTable t i src) m a)
    (k₁ : Kept (Held (S.own κ)) s s₁) (hm : ∀ j, j < 1024 → s₁.mem t j = src j)
    (hfree : S.own κ t = .none) (hd : d ∈ S.dirs) (hi : i < 1024)
    (hsrc : ∀ j, j < 1024 → src j = S.pte κ d i j) (hfe : frame e = t)
    (hpe : priv e = true) (hw : writable e = true) (hu : user e = true)
    (hg : global e = true ↔ κ.pde i ≠ 0#32) :
    Sound κ b (s₁.put d i e) (S.install d i t src e) m a ∧
      Agrees (s₁.put d i e) (S.install d i t src e) := by
  obtain ⟨hn, ht⟩ := h.shape.unnamed_of_free hfree
  have hdn : d ∈ S.nodes := Space.mem_nodes.mpr (Or.inl hd)
  have hdn' : d ∈ (S.withTable t i src).nodes := by
    rw [Space.withTable_nodes]
    exact Finset.mem_insert_of_mem hdn
  have h₂ := h₁.store (h₁.shape.held_node hdn') (h.shape.kernelNodes d hdn)
    (Function.update (s₁.mem d) i e)
  refine ⟨Sound.install h.shape h₂ hfree hd hi (fun j hj hp hf => ?_) hfe hpe hw hu hg,
    Agrees.install h.shape hA k₁ hd ht hm⟩
  rw [hsrc j hj] at hp hf
  have := h.shape.names_pte hd hi hj hp
  rw [hf] at this
  omega

theorem Sound.ownTable_spec (h : Sound κ b s S n a) (hA : Agrees s S) (hd : d ∈ S.dirs)
    (va : Word) :
    wp (ownTable d va uFlags) (fun e s' => ∃ S', Sound κ b s' S' (n - 2) a ∧ Agrees s' S' ∧
        OwnedTable κ s S d (pdi va) s' S' ∧ e = S'.ent d (pdi va))
      (fun e _ => e = .noFrames ∧ n < 2 ∨ e = .refOverflow ∧
        ∃ j, j < 1024 ∧ priv (S.pte κ d (pdi va) j) = true) s := by
  have hdn : d ∈ S.nodes := Space.mem_nodes.mpr (Or.inl hd)
  have hi := pdi_lt va
  have E := h.shape.dirEntry d hd (pdi va) hi
  have hload := hA d hdn (pdi va) hi
  have hbit : ∀ {e : Word}, e &&& 1#32 = 0#32 ↔ present e = false := and_P
  unfold ownTable
  simp only [wp_bind, wp_load, wp_ite, wp_assert, wp_store, hload]
  rw [if_pos (by decide)]
  by_cases hP : present (S.ent d (pdi va)) = true
  · rw [if_neg (by rw [hbit, hP]; simp)]
    by_cases hF : S.ent d (pdi va) &&& uFlags = uFlags
    · -- the directory has a table of its own already
      obtain ⟨-, hw, -, hng⟩ := and_uFlags.mp hF
      have hp : priv (S.ent d (pdi va)) = true := by
        unfold priv
        rw [hP, hng]
        rfl
      rw [if_neg (by rw [ne_eq, not_not]; exact hF)]
      exact ⟨S, h.weaken (Nat.sub_le n 2), hA, ⟨rfl, rfl, rfl, SameRegs.refl s, Nat.le_refl _, hp, hw,
        fun _ hx => Or.inl hx, fun _ hq => Or.inl hq, fun _ _ _ _ _ => rfl, fun _ _ _ _ _ _ => rfl, fun _ _ _ _ => rfl⟩, rfl⟩
    · -- a shared table, private or the kernel's, is copied
      rw [if_pos hF]
      have hro : priv (S.ent d (pdi va)) = true → writable (S.ent d (pdi va)) = false := by
        intro hp
        by_contra hw
        exact hF (and_uFlags.mpr ⟨hP, by simpa using hw, E.user hp, nonGlobal_of_priv hp⟩)
      have hsrc := h.shape.sharable_pte hd hi fun hp => E.shared hp (hro hp)
      -- the copy reads either a table of the process or one of the kernel's; both are held, and
      -- both have what the space says
      obtain ⟨hheld, hmem⟩ : Held (S.own κ) (frame (S.ent d (pdi va))) ∧
          ∀ j, j < 1024 → s.mem (frame (S.ent d (pdi va))) j = S.pte κ d (pdi va) j := by
        by_cases hp : priv (S.ent d (pdi va)) = true
        · have htn := Space.mem_nodes.mpr (Or.inr (E.table hp))
          exact ⟨h.shape.held_node htn, fun j hj => by
            rw [hA _ htn j hj, Space.pte_of_priv hp]⟩
        · have hnp : priv (S.ent d (pdi va)) = false := by simpa using hp
          have hk := E.kernel hnp
          have hne : κ.pde (pdi va) ≠ 0#32 := by
            rw [← hk]
            rintro h0
            rw [h0] at hP
            exact absurd hP (by simp)
          rw [hk]
          exact ⟨h.shape.kernel_held (κ.tableIn _ hne), fun j hj => by
            rw [h.kernel.pte _ j hi hj hne, Space.pte_of_not_priv hnp]⟩
      refine wp_mono (h.copyPt_spec hheld hmem hsrc) (fun t s₁ hpost => ?_)
        (fun _ _ he => he)
      obtain ⟨hfree, hm₁, h₁, k₁⟩ := hpost
      have ht := h.shape.unnamed_of_free hfree
      have htal : Aligned t := h₁.held_aligned (h₁.shape.held_node (x := t) (by
        rw [Space.withTable_nodes]
        exact Finset.mem_insert_self _ _))
      have hup : ∀ j, j < 1024 →
          upTo κ (pdi va) (S.pte κ d (pdi va)) 1024 j = S.pte κ d (pdi va) j := fun j hj =>
        if_pos hj
      obtain ⟨hfe, hpe, hwe, hue, hge⟩ := mk_uFlags htal (low_lowBits (S.ent d (pdi va)))
      have hgl : global (t ||| lowBits (S.ent d (pdi va)) ||| uFlags) = true ↔
          κ.pde (pdi va) ≠ 0#32 := by
        rw [hge, global_lowBits]
        by_cases hp : priv (S.ent d (pdi va)) = true
        · exact E.mixed hp
        · have hk := E.kernel (by simpa using hp)
          rw [hk]
          obtain h0 | h0 := κ.pdeOk (pdi va)
          · rw [hk, h0] at hP
            exact absurd hP (by simp)
          · simp [h0.global, h0.ne_zero]
      obtain ⟨h₂, hA₂⟩ := h.installed hA h₁ k₁ (fun j hj => by rw [hm₁ j hj, hup j hj])
        hfree hd hi hup hfe hpe hwe hue hgl
      -- a private table that was named here loses a reference, the kernel's has none to lose
      by_cases hp : priv (S.ent d (pdi va)) = true
      · rw [if_pos (by rw [ne_eq, and_NG, nonGlobal_of_priv hp]; simp)]
        have htab := E.table hp
        have hne : frame (S.ent d (pdi va)) ≠ t := by
          rintro rfl
          exact ht.2 (Space.mem_nodes.mpr (Or.inr htab))
        refine wp_mono (h₂.decref_destroyPt_spec (Finset.mem_insert_of_mem htab) ?_
          (hA₂ _ (Space.mem_nodes.mpr (Or.inr (Finset.mem_insert_of_mem htab)))))
          (fun _ s₃ hpost => ?_) (fun _ _ he => he.elim)
        · have hr : S.ref d (pdi va) = some (S.ent d (pdi va) &&& Flag.MASK) :=
            refOf_eq_some.mpr ⟨hp, rfl⟩
          rw [Space.install_extra hfe hpe ht.2 hdn, hr, if_pos rfl]
          omega
        · obtain ⟨h₃, k₃⟩ := hpost
          have hA₃ := hA₂.kept h₃.shape (Space.dropTable_nodes _) Space.dropTable_ent k₃
          refine ⟨_, h₃, hA₃, OwnedTable.replace h.shape k₁ k₃ hfree hd hi hp hup hfe hpe hwe, ?_⟩
          exact hA₃ d (by rw [Space.mem_nodes, Space.dropTable_dirs]; exact Or.inl hd) _ hi
      · have hnp : priv (S.ent d (pdi va)) = false := by simpa using hp
        have hng : nonGlobal (S.ent d (pdi va)) = false := by
          unfold priv at hnp
          rw [hP, Bool.true_and] at hnp
          exact hnp
        rw [if_neg (by rw [ne_eq, not_not, and_NG, hng])]
        exact ⟨_, h₂, hA₂, OwnedTable.install h.shape k₁ hfree hd hi hnp hup hfe hpe hwe,
          hA₂ d (Space.mem_nodes.mpr (Or.inl hd)) _ hi⟩
  · -- no table yet
    have hP' : present (S.ent d (pdi va)) = false := by simpa using hP
    have hnp := not_priv_of_absent hP'
    rw [if_pos (hbit.mpr hP')]
    refine wp_mono h.allocFrame_spec (fun t s₁ hpost => ?_) (fun _ _ he => Or.inl he)
    obtain ⟨hfree, hzero, h₁, k₁⟩ := hpost
    obtain ⟨hn, ht⟩ := h.shape.unnamed_of_free hfree
    -- the kernel maps nothing in these 4 MB, so the zeroed frame is a copy of its part
    have hk0 : κ.pde (pdi va) = 0#32 := by
      obtain h0 | h0 := κ.pdeOk (pdi va)
      · exact h0
      · rw [E.kernel hnp, h0.present] at hP'
        exact absurd hP' (by simp)
    have hex : 0 < (S.give t).extra t := by
      rw [Space.give_extra_self]
      omega
    have h₁' : Sound κ b s₁ (S.withTable t (pdi va) (κ.pte (pdi va))) (n - 2) a :=
      h₁.addTable (pdi va) ht hn hex (h.shape.not_kernel_of_free hfree)
    have htal : Aligned t := h₁.held_aligned (p := t) (Space.held_iff.mpr (Or.inr (Or.inr (by
      rw [Space.count_give, if_pos rfl]
      omega))))
    obtain ⟨hfe, hpe, hwe, hue, hge⟩ := mk_uFlags htal (l := 0#32) (by unfold Low; decide)
    rw [BitVec.or_zero] at hfe hpe hwe hue hge
    have hsrc : ∀ j, j < 1024 → κ.pte (pdi va) j = S.pte κ d (pdi va) j := fun j _ =>
      (Space.pte_of_not_priv hnp j).symm
    obtain ⟨h₂, hA₂⟩ := h.installed hA h₁' k₁
      (fun j _ => by rw [hzero, κ.noTable _ _ hk0]) hfree hd hi hsrc hfe hpe hwe hue
      (by rw [hge, hk0]; decide)
    exact ⟨_, h₂, hA₂, OwnedTable.install h.shape k₁ hfree hd hi hnp hsrc hfe hpe hwe,
      hA₂ d (Space.mem_nodes.mpr (Or.inl hd)) _ hi⟩

/-! ## The store of the page -/

/-- A frame that the running operation holds the only reference to. -/
structure InHand (κ : KernelMap) (S : Space) (p : Word) : Prop where
  names : S.names p = 0
  extra : S.extra p = 1
  node : p ∉ S.nodes
  kernel : p ∉ κ.frames

theorem InHand.count {p : Word} (h : InHand κ S p) : S.count p = 1 := by
  unfold Space.count
  rw [h.names, h.extra]

theorem InHand.of_alloc (H : Shape κ b S) {p : Word} (hfree : S.own κ p = .none) :
    InHand κ (S.give p) p := by
  obtain ⟨hn, hnode⟩ := H.unnamed_of_free hfree
  have hc := (Space.own_eq_none_iff.mp hfree).2.2
  refine ⟨hn, ?_, hnode, H.not_kernel_of_free hfree⟩
  rw [Space.give_extra_self]
  unfold Space.count at hc
  omega

theorem InHand.ownedTable {p : Word} {s' : Machine} {S' : Space} (h : InHand κ S p)
    (O : OwnedTable κ s S d i s' S') (hheld : Held (S.own κ) p) : InHand κ S' p := by
  refine ⟨?_, by rw [O.extra]; exact h.extra, fun hx => ?_, h.kernel⟩
  · by_contra hne
    obtain h0 | h0 := O.named p (Nat.pos_of_ne_zero hne)
    · have := h.names
      omega
    · exact hheld h0
  · exact (O.nodes p hx).elim h.node hheld

/-- Page `j` of slot `i` of `d` becomes the frame `p`. -/
theorem Sound.mapped (h : Sound κ b s S n a) (hd : d ∈ S.dirs) (hi : i < 1024) (hj : j < 1024)
    (hp : priv (S.ent d i) = true) (hw : writable (S.ent d i) = true) {p : Word}
    (hph : InHand κ S p) (hb : b → κ.pte i j = 0#32) :
    Sound κ b s (S.put (frame (S.ent d i)) j (p ||| uFlags)) n a := by
  have E := h.shape.dirEntry d hd i hi
  have hdn : d ∈ S.nodes := Space.mem_nodes.mpr (Or.inl hd)
  have htab := E.table hp
  have hal : Aligned p := h.held_aligned (Space.held_iff.mpr (Or.inr (Or.inr (by
    rw [hph.count]
    exact Nat.one_pos))))
  obtain ⟨hfe, hpe, hwe, hue, hge⟩ := mk_uFlags hal (l := 0#32) (by unfold Low; decide)
  rw [BitVec.or_zero] at hfe hpe hwe hue hge
  refine h.put (Space.mem_nodes.mpr (Or.inr htab)) hj (fun q hq => Or.inl ?_)
    (fun hdt => absurd htab (h.shape.disj _ hdt)) (fun _ => ?_) (fun _ _ _ x hx k hk hpx hfx => ?_)
    (fun q hq hr => ?_)
  · obtain ⟨-, rfl⟩ := refOf_eq_some.mp hq
    rw [hfe, hph.extra]
    exact Nat.one_pos
  · rw [E.home hp]
    exact {
      kernel := fun hn => by rw [hpe] at hn; exact absurd hn (by simp)
      keeps := fun hb' hne => absurd (hb hb') hne
      page := fun _ => by rw [hfe]; exact hph.node
      notKernel := fun _ => by rw [hfe]; exact hph.kernel
      user := fun _ => hue
      notGlobal := fun _ => by rw [hge]; decide
      single := fun _ _ => by rw [hfe]; exact hph.count }
  · -- nobody else names a table under a writable entry
    obtain ⟨rfl, rfl⟩ := Space.only hdn hi hp (E.single hp hw)
      (Space.mem_nodes.mpr (Or.inl hx)) hk hpx hfx
    exact hw
  · obtain ⟨-, rfl⟩ := refOf_eq_some.mp hr
    rw [hfe] at hq
    exact hph.kernel (Finset.mem_union_right _ hq)

/-- The other pages are shown as before. -/
theorem Space.pte_put (H : Shape κ b S) (hd : d ∈ S.dirs) (hi : i < 1024)
    (hp : priv (S.ent d i) = true) (hw : writable (S.ent d i) = true) {e : Word} {x : Word}
    {k l : Nat} (hx : x ∈ S.dirs) (hk : k < 1024) (hne : ¬ (x = d ∧ k = i ∧ l = j)) :
    (S.put (frame (S.ent d i)) j e).pte κ x k l = S.pte κ x k l := by
  have E := H.dirEntry d hd i hi
  have hdn : d ∈ S.nodes := mem_nodes.mpr (Or.inl hd)
  have hxn : x ∈ S.nodes := mem_nodes.mpr (Or.inl hx)
  have hxt : x ≠ frame (S.ent d i) := by
    rintro rfl
    exact H.disj _ hx (E.table hp)
  refine pte_congr (by rw [put_ent_ne hxt]) fun hpx => ?_
  by_cases hf : frame (S.ent x k) = frame (S.ent d i)
  · obtain ⟨rfl, rfl⟩ := only hdn hi hp (E.single hp hw) hxn hk hpx hf
    exact put_ent_other fun h => hne ⟨rfl, rfl, h⟩
  · rw [put_ent_ne hf]

theorem Space.pte_put_self (H : Shape κ b S) (hd : d ∈ S.dirs) (hi : i < 1024)
    (hp : priv (S.ent d i) = true) {e : Word} :
    (S.put (frame (S.ent d i)) j e).pte κ d i j = e := by
  have htab := (H.dirEntry d hd i hi).table hp
  have hdt : d ≠ frame (S.ent d i) := by
    intro h
    exact H.disj d hd (by rw [h]; exact htab)
  have hent : (S.put (frame (S.ent d i)) j e).ent d i = S.ent d i := by rw [put_ent_ne hdt]
  rw [pte_of_priv (by rw [hent]; exact hp), hent, put_ent_self]

/-! ## `alloc_frame` and the common part

`map` and `map_copy` begin in the same way: a frame is allocated, and the directory gets a table
of its own for the slot if it has none. `Prepared` is the state in which the two part. What can go
wrong up to there is that frames or counts run out (`NoTable`), and then the frame is lost with
the process. -/

/-- The state in which `map` and `map_copy` look at the table: `d` has a table of its own for slot
`i`, the zeroed frame `p` is in hand, and nobody's view has changed. -/
structure Prepared (κ : KernelMap) (s : Machine) (S : Space) (d : Word) (i : Nat) (p : Word)
    (s' : Machine) (S' : Space) : Prop where
  fresh : S.own κ p = .none
  inHand : InHand κ S' p
  zero : s'.mem p = fun _ => 0#32
  dirs : S'.dirs = S.dirs
  extra : S'.extra = (S.give p).extra
  dying : S'.dying = S.dying
  regs : SameRegs s s'
  mono : s.avail.toNat ≤ s'.avail.toNat
  isPriv : priv (S'.ent d i) = true
  isWritable : writable (S'.ent d i) = true
  ent : ∀ x ∈ S.dirs, ∀ k, k < 1024 → ¬ (x = d ∧ k = i) → S'.ent x k = S.ent x k
  pte : ∀ x ∈ S.dirs, ∀ k, k < 1024 → ∀ l, l < 1024 → S'.pte κ x k l = S.pte κ x k l
  data : ∀ x ∈ S.dirs, ∀ k, k < 1024 → ∀ l, l < 1024 → S'.data κ s' x k l = S.data κ s x k l

/-- Why `alloc_frame` and the common part may not return. -/
def NoTable (κ : KernelMap) (S : Space) (n : Nat) (d : Word) (i : Nat) (e : Stop) : Prop :=
  e = .noFrames ∧ n < 4 ∨ e = .refOverflow ∧ ∃ j, j < 1024 ∧ priv (S.pte κ d i j) = true

theorem Sound.prepare (h : Sound κ b s S n a) (hA : Agrees s S) (hd : d ∈ S.dirs) (va : Word)
    {X : Word → Word → Prog Stop Machine Unit} {Q : Unit → Machine → Prop}
    {E : Stop → Machine → Prop} (hE : ∀ e t, NoTable κ S n d (pdi va) e → E e t)
    (hQ : ∀ p s' S', Sound κ b s' S' (n - 4) a → Agrees s' S' →
      Prepared κ s S d (pdi va) p s' S' → wp (X p (S'.ent d (pdi va))) Q E s') :
    wp allocFrame (fun p => wp (ownTable d va uFlags >>= X p) Q E) E s := by
  refine wp_mono h.allocFrame_spec (fun p s₀ ⟨hfree, hzero, h₀, k₀⟩ => ?_)
    (fun e t he => hE e t (Or.inl ⟨he.1, by omega⟩))
  have hA₀ : Agrees s₀ (S.give p) := fun x hx i hi => by
    rw [k₀.mem x (h.shape.held_node hx)]
    exact hA x hx i hi
  rw [wp_bind]
  refine wp_mono (h₀.ownTable_spec hA₀ hd va) (fun e s₁ ⟨S₁, h₁, hA₁, O, he⟩ => ?_) (fun e t he => ?_)
  · rw [he]
    have hp₀ : Held ((S.give p).own κ) p := Space.held_iff.mpr (Or.inr (Or.inr (by
      rw [Space.count_give, if_pos rfl]
      omega)))
    have hin := (InHand.of_alloc h.shape hfree).ownedTable O hp₀
    have hp₁ : Held (S₁.own κ) p := Space.held_iff.mpr (Or.inr (Or.inr (by
      rw [hin.count]
      exact Nat.one_pos)))
    refine hQ p s₁ S₁ (h₁.weaken (by omega)) hA₁ {
      fresh := hfree
      inHand := hin
      zero := by rw [O.mem p (InHand.of_alloc h.shape hfree).node hp₀ hp₁, hzero]
      dirs := O.dirs
      extra := O.extra
      dying := O.dying
      regs := k₀.regs.trans O.regs
      mono := k₀.mono.trans O.mono
      isPriv := O.isPriv
      isWritable := O.isWritable
      ent := O.ent
      pte := O.pte
      data := fun x hx k hk l hl => ?_ }
    rw [O.data h₀.shape h₁.shape hx hk hl]
    exact h.shape.data_eq h₀.shape hx hx hk hl rfl fun q _ hh _ => k₀.mem q hh
  · obtain ⟨rfl, hn⟩ | ⟨rfl, hov⟩ := he
    · exact hE _ t (Or.inl ⟨rfl, by omega⟩)
    · exact hE _ t (Or.inr ⟨rfl, hov⟩)

/-- `d` has a page of its own, writable at both levels, at page `j` of slot `i`; everybody else
sees what they saw. Where `c` holds, so does `d`, and no reference is forgotten. -/
structure Mapped (κ : KernelMap) (c : Prop) (s : Machine) (S : Space) (d : Word) (i j : Nat)
    (s' : Machine) (S' : Space) : Prop where
  dirs : S'.dirs = S.dirs
  dying : S'.dying = S.dying
  regs : SameMap s s'
  mono : s.avail.toNat ≤ s'.avail.toNat
  isPriv : priv (S'.ent d i) = true
  isWritable : writable (S'.ent d i) = true
  page : priv (S'.pte κ d i j) = true
  pageWritable : writable (S'.pte κ d i j) = true
  ent : ∀ x ∈ S.dirs, ∀ k, k < 1024 → ¬ (x = d ∧ k = i) → S'.ent x k = S.ent x k
  pte : ∀ x ∈ S.dirs, ∀ k, k < 1024 → ∀ l, l < 1024 → ¬ (x = d ∧ k = i ∧ l = j) →
    S'.pte κ x k l = S.pte κ x k l
  data : ∀ x ∈ S.dirs, ∀ k, k < 1024 → ∀ l, l < 1024 → ¬ (x = d ∧ k = i ∧ l = j) →
    S'.data κ s' x k l = S.data κ s x k l
  same : c → S'.data κ s' d i j = S.data κ s d i j
  extra : c → S'.extra = S.extra

section mapped

variable {s₁ : Machine} {S₁ : Space} {p : Word}

/-- The entry of the new page. -/
theorem Prepared.entry (P : Prepared κ s S d i p s₁ S₁) (h₁ : Sound κ b s₁ S₁ n a) :
    frame (p ||| uFlags) = p ∧ priv (p ||| uFlags) = true ∧ writable (p ||| uFlags) = true := by
  have hal : Aligned p := h₁.held_aligned (Space.held_iff.mpr (Or.inr (Or.inr (by
    rw [P.inHand.count]
    exact Nat.one_pos))))
  obtain ⟨hfe, hpe, hwe, -, -⟩ := mk_uFlags hal (l := 0#32) (by unfold Low; decide)
  rw [BitVec.or_zero] at hfe hpe hwe
  exact ⟨hfe, hpe, hwe⟩

/-- Memory after the store of the page's entry. -/
theorem Agrees.put {t e : Word} (hA : Agrees s S) (j : Nat) :
    Agrees (s.put t j e) (S.put t j e) := by
  intro x hx k hk
  show Function.update s.mem t (Function.update (s.mem t) j e) x k = _
  by_cases hxt : x = t
  · rw [hxt, Function.update_self]
    by_cases hkj : k = j
    · rw [hkj, Function.update_self, Space.put_ent_self]
    · rw [Function.update_of_ne hkj, Space.put_ent_other hkj]
      exact hA t (hxt ▸ hx) k hk
  · rw [Function.update_of_ne hxt, Space.put_ent_ne hxt]
    exact hA x hx k hk

/-- What the store of the new page's entry does to the references. -/
theorem Prepared.put_extra (P : Prepared κ s S d i p s₁ S₁) (h₁ : Sound κ b s₁ S₁ n a)
    (hd : d ∈ S.dirs) (hi : i < 1024) (hj : j < 1024) (q : Word) :
    (S₁.put (frame (S₁.ent d i)) j (p ||| uFlags)).extra q =
      S.extra q + if refOf (S.pte κ d i j) = some q then 1 else 0 := by
  obtain ⟨hfe, hpe, -⟩ := P.entry h₁
  have hr : S₁.ref (frame (S₁.ent d i)) j = refOf (S.pte κ d i j) := by
    rw [← P.pte d hd i hi j hj, Space.pte_of_priv P.isPriv]
    rfl
  have he : refOf (p ||| uFlags) = some p := refOf_eq_some.mpr ⟨hpe, hfe⟩
  rw [Space.put_extra, P.extra, hr, he]
  by_cases hq : q = p
  · rw [hq, if_pos (rfl : some p = some p), Space.give_extra_self]
    omega
  · rw [if_neg (by simpa using Ne.symm hq : ¬ some p = some q), Space.give_extra_ne hq, Nat.sub_zero]

theorem Prepared.count_put (P : Prepared κ s S d i p s₁ S₁) (h₁ : Sound κ b s₁ S₁ n a)
    (hd : d ∈ S.dirs) (hi : i < 1024) (hj : j < 1024) :
    (S₁.put (frame (S₁.ent d i)) j (p ||| uFlags)).count p = 1 := by
  obtain ⟨hfe, hpe, -⟩ := P.entry h₁
  have htab := (h₁.shape.dirEntry d (by rw [P.dirs]; exact hd) i hi).table P.isPriv
  rw [Space.count_put (Space.mem_nodes.mpr (Or.inr htab)) hj, P.inHand.count]
  intro q hq
  obtain ⟨-, rfl⟩ := refOf_eq_some.mp hq
  rw [hfe, P.inHand.extra]
  exact Or.inl Nat.one_pos

/-- The new page is in the table, and the pages of everybody else have not been touched. -/
theorem Prepared.mapped {c : Prop} {s₂ : Machine} {S₂ : Space} (P : Prepared κ s S d i p s₁ S₁)
    (h₁ : Sound κ b s₁ S₁ n a) (H₂ : Shape κ b S₂) (hd : d ∈ S.dirs) (hi : i < 1024)
    (hdirs : S₂.dirs = S₁.dirs) (hdying : S₂.dying = S₁.dying)
    (hent : S₂.ent = (S₁.put (frame (S₁.ent d i)) j (p ||| uFlags)).ent)
    (hr : SameRegs s₁ s₂) (hav : s₁.avail.toNat ≤ s₂.avail.toNat)
    (hm : ∀ q, q ∉ S₁.nodes → q ≠ p → Held (S₁.own κ) q → Held (S₂.own κ) q → s₂.mem q = s₁.mem q)
    (hsame : c → s₂.mem p = S.data κ s d i j) (hx : c → S₂.extra = S.extra) :
    Mapped κ c s S d i j s₂ S₂ := by
  have hd₁ : d ∈ S₁.dirs := by rw [P.dirs]; exact hd
  have H₁ := h₁.shape
  have htab := (H₁.dirEntry d hd₁ i hi).table P.isPriv
  obtain ⟨hfe, hpe, hwe⟩ := P.entry h₁
  have hself : S₂.pte κ d i j = p ||| uFlags := by
    rw [Space.pte_of_ent_eq hent]
    exact Space.pte_put_self H₁ hd₁ hi P.isPriv
  have hother : ∀ x ∈ S.dirs, ∀ k, k < 1024 → ∀ l, l < 1024 → ¬ (x = d ∧ k = i ∧ l = j) →
      S₂.pte κ x k l = S₁.pte κ x k l := by
    intro x hx k hk l _ hne
    rw [Space.pte_of_ent_eq hent]
    exact Space.pte_put H₁ hd₁ hi P.isPriv P.isWritable (by rw [P.dirs]; exact hx) hk hne
  have hdir : ∀ x ∈ S.dirs, S₂.ent x = S₁.ent x := by
    intro x hx
    rw [hent]
    refine Space.put_ent_ne ?_
    rintro rfl
    exact H₁.disj _ (by rw [P.dirs]; exact hx) htab
  refine
    { dirs := hdirs.trans P.dirs
      dying := hdying.trans P.dying
      regs := SameMap.of_regs (P.regs.trans hr)
      mono := P.mono.trans hav
      isPriv := by rw [hdir d hd]; exact P.isPriv
      isWritable := by rw [hdir d hd]; exact P.isWritable
      page := by rw [hself]; exact hpe
      pageWritable := by rw [hself]; exact hwe
      ent := fun x hx k hk hne => by rw [hdir x hx]; exact P.ent x hx k hk hne
      pte := fun x hx k hk l hl hne => (hother x hx k hk l hl hne).trans (P.pte x hx k hk l hl)
      data := fun x hx k hk l hl hne => ?_
      same := fun hc => ?_
      extra := hx }
  · have hx₁ : x ∈ S₁.dirs := by rw [P.dirs]; exact hx
    rw [← P.data x hx k hk l hl]
    refine Space.data_of_pte (hother x hx k hk l hl hne) fun hp => ?_
    have hh₁ := H₁.held_pte hx₁ hk hl hp
    have hh₂ := H₂.held_pte (d := x) (i := k) (j := l) (by rw [hdirs]; exact hx₁) hk hl
    rw [hother x hx k hk l hl hne] at hh₂
    refine hm _ ((H₁.pteEntry hx₁ hk hl).page hp) ?_ hh₁ (hh₂ hp)
    rintro hf
    have := H₁.names_pte hx₁ hk hl hp
    rw [hf, P.inHand.names] at this
    omega
  · unfold Space.data
    rw [hself, if_pos hpe, hfe, hsame hc]
    rfl

/-- `map` after the common part. -/
theorem Prepared.map (P : Prepared κ s S d i p s₁ S₁) (h₁ : Sound κ b s₁ S₁ n a)
    (hA₁ : Agrees s₁ S₁) (hd : d ∈ S.dirs) (hi : i < 1024) (hj : j < 1024)
    (hb : b → κ.pte i j = 0#32) :
    ∃ S₂, Sound κ b (s₁.put (frame (S₁.ent d i)) j (p ||| uFlags)) S₂ n a ∧
      Agrees (s₁.put (frame (S₁.ent d i)) j (p ||| uFlags)) S₂ ∧
      Mapped κ (priv (S.pte κ d i j) = false) s S d i j
        (s₁.put (frame (S₁.ent d i)) j (p ||| uFlags)) S₂ := by
  have hd₁ : d ∈ S₁.dirs := by rw [P.dirs]; exact hd
  have htab := (h₁.shape.dirEntry d hd₁ i hi).table P.isPriv
  have htn : frame (S₁.ent d i) ∈ S₁.nodes := Space.mem_nodes.mpr (Or.inr htab)
  have h₂ := h₁.mapped hd₁ hi hj P.isPriv P.isWritable P.inHand hb
  refine ⟨_, h₂.store (h₂.shape.held_node htn) (h₁.shape.kernelNodes _ htn) _, hA₁.put j,
    P.mapped h₁ h₂.shape hd hi rfl rfl rfl (SameRegs.store (SameRegs.refl _) _) (Nat.le_refl _)
      (fun q hq _ _ _ => ?_) (fun hc => ?_) (fun hc => ?_)⟩
  · exact Function.update_of_ne (by rintro rfl; exact hq htn) _ _
  · have hpt : p ≠ frame (S₁.ent d i) := by
      rintro rfl
      exact P.inHand.node htn
    show Function.update s₁.mem (frame (S₁.ent d i)) _ p = _
    rw [Function.update_of_ne hpt, P.zero]
    unfold Space.data
    rw [hc]
    rfl
  · funext q
    rw [P.put_extra h₁ hd hi hj, refOf_eq_none.mpr hc]
    simp

/-- Where the kernel has a page, a directory shows that page, as long as its entries are known to be
untouched. -/
theorem Shape.pte_kernel (H : Shape κ b S) (hb : b) (hd : d ∈ S.dirs) (hi : i < 1024)
    (hj : j < 1024) (hne : κ.pte i j ≠ 0#32) : S.pte κ d i j = κ.pte i j :=
  (H.pteEntry hd hi hj).keeps hb hne

theorem KernelMap.pte_eq_zero {i j : Nat} {e : Word} (h : e = κ.pte i j)
    (hp : present e = true → writable e = true → False) : κ.pte i j = 0#32 := by
  obtain h0 | h0 := κ.pteOk i j
  · exact h0
  · exact (hp (h ▸ h0.present) (h ▸ h0.writable)).elim

/-- The second half of `map_copy`. -/
theorem Prepared.mapCopy (P : Prepared κ s S d i p s₁ S₁) (h₁ : Sound κ b s₁ S₁ n a)
    (hA₁ : Agrees s₁ S₁) (hd : d ∈ S.dirs) (hi : i < 1024) (hj : j < 1024)
    {E : Stop → Machine → Prop}
    (hE : present (S.pte κ d i j) = true → writable (S.pte κ d i j) = true → E (.exit (-1)) s₁) :
    wp (do
        let pte ← load (S₁.ent d i &&& Flag.MASK) j
        if pte &&& Flag.P ≠ 0#32 then do
          if pte &&& Flag.RW ≠ 0#32 then
            throw (.exit (-1))
          memcpy p (pte &&& Flag.MASK)
          decref (pte &&& Flag.MASK) destroyPg
        store (S₁.ent d i &&& Flag.MASK) j (p ||| uFlags))
      (fun _ s' => (present (S.pte κ d i j) = true → writable (S.pte κ d i j) = false) ∧
        ∃ S', Sound κ b s' S' n a ∧ Agrees s' S' ∧ Mapped κ True s S d i j s' S')
      E s₁ := by
  have hd₁ : d ∈ S₁.dirs := by rw [P.dirs]; exact hd
  have H₁ := h₁.shape
  have htab := (H₁.dirEntry d hd₁ i hi).table P.isPriv
  have htn : frame (S₁.ent d i) ∈ S₁.nodes := Space.mem_nodes.mpr (Or.inr htab)
  have hpt : p ≠ frame (S₁.ent d i) := by
    rintro rfl
    exact P.inHand.node htn
  have hpte := P.pte d hd i hi j hj
  have hload : s₁.mem (S₁.ent d i &&& Flag.MASK) j = S.pte κ d i j := by
    rw [← hpte, Space.pte_of_priv P.isPriv]
    exact hA₁ _ htn j hj
  have T := H₁.pteEntry hd₁ hi hj
  rw [hpte] at T
  have hkern : (present (S.pte κ d i j) = true → writable (S.pte κ d i j) = true → False) →
      b → κ.pte i j = 0#32 := by
    intro hro hb
    by_contra hne
    exact hne (KernelMap.pte_eq_zero (T.keeps hb hne) hro)
  simp only [wp_bind, wp_load, wp_ite, wp_throw, wp_memcpy, wp_store, hload]
  by_cases hP : present (S.pte κ d i j) = true
  · rw [if_pos (by rw [ne_eq, and_P, hP]; simp)]
    by_cases hw : writable (S.pte κ d i j) = true
    · rw [if_pos (by rw [ne_eq, and_RW, hw]; simp)]
      exact hE hP hw
    · -- a read-only page: it is copied, and the reference to it given back
      have hro : writable (S.pte κ d i j) = false := by simpa using hw
      rw [if_neg (by rw [ne_eq, not_not, and_RW, hro])]
      have hp : priv (S.pte κ d i j) = true := by
        by_contra hn
        have := (T.kernelEntry hP (by simpa using hn)).writable
        rw [hro] at this
        exact absurd this (by simp)
      have h₂ := h₁.mapped hd₁ hi hj P.isPriv P.isWritable P.inHand
        (hkern fun _ hw' => hw hw')
      have hq := H₁.names_pte hd₁ hi hj (by rw [hpte]; exact hp)
      rw [hpte] at hq
      -- `p` is new, so no entry names it
      have hqp : frame (S.pte κ d i j) ≠ p := by
        intro hf
        rw [hf, P.inHand.names] at hq
        omega
      have hcp : (S₁.put (frame (S₁.ent d i)) j (p ||| uFlags)).count p = 1 :=
        P.count_put h₁ hd hi hj
      -- in the space the entry changes first: its old reference is in hand when `decref` comes
      have hexq := P.put_extra h₁ hd hi hj (frame (S.pte κ d i j))
      rw [refOf_eq_some.mpr ⟨hp, rfl⟩, if_pos rfl] at hexq
      have hexq' : 0 < (S₁.put (frame (S₁.ent d i)) j (p ||| uFlags)).extra
          (frame (S.pte κ d i j)) := by omega
      have hh₂ : Held ((S₁.put (frame (S₁.ent d i)) j (p ||| uFlags)).own κ) p :=
        Space.held_iff.mpr (Or.inr (Or.inr (by omega)))
      refine wp_mono ((h₂.store hh₂ P.inHand.kernel _).decref_destroyPg_spec hexq'
        (fun h => T.page hp (Space.mem_nodes.mpr (Or.inr h)))
        (fun h => T.notKernel hp (Finset.mem_union_right _ h))) (fun _ s₃ hpost => ?_)
        (fun _ _ he => he.elim)
      obtain ⟨h₃, k₃⟩ := hpost
      have hmem₃ : ∀ x, x ≠ p → Held (((S₁.put (frame (S₁.ent d i)) j (p ||| uFlags)).take
          (frame (S.pte κ d i j))).own κ) x → s₃.mem x = s₁.mem x := by
        intro x hxp hx
        rw [k₃.mem x hx]
        exact Function.update_of_ne hxp _ _
      have hA₃ : Agrees s₃ S₁ := by
        intro x hx k hk
        have hxp : x ≠ p := by rintro rfl; exact P.inHand.node hx
        rw [hmem₃ x hxp (h₃.shape.held_node hx)]
        exact hA₁ x hx k hk
      refine ⟨fun _ => hro, _, h₃.store (h₃.shape.held_node htn) (H₁.kernelNodes _ htn) _,
        hA₃.put j, P.mapped h₁ h₃.shape hd hi rfl rfl rfl ((SameRegs.store (SameRegs.refl _) _).trans
          (k₃.regs.store _)) k₃.mono (fun x hx hxp _ hh => ?_) (fun _ => ?_) (fun _ => ?_)⟩
      · refine Eq.trans (Function.update_of_ne ?_ _ _) (hmem₃ x hxp hh)
        rintro rfl
        exact hx htn
      · have hp₃ : Held (((S₁.put (frame (S₁.ent d i)) j (p ||| uFlags)).take
            (frame (S.pte κ d i j))).own κ) p := by
          have hct := Space.count_take hexq' p
          rw [if_neg (Ne.symm hqp)] at hct
          exact Space.held_iff.mpr (Or.inr (Or.inr (by omega)))
        have hdata := P.data d hd i hi j hj
        rw [← hdata]
        unfold Space.data
        rw [hpte, hp, if_pos rfl]
        refine Eq.trans (Function.update_of_ne hpt _ _) ?_
        rw [k₃.mem p hp₃]
        exact Function.update_self ..
      · funext x
        by_cases hx : x = frame (S.pte κ d i j)
        · rw [hx]
          exact Eq.trans Space.take_extra_self (Nat.sub_eq_of_eq_add hexq)
        · refine Eq.trans (Space.take_extra_ne hx) ?_
          rw [P.put_extra h₁ hd hi hj, refOf_eq_some.mpr ⟨hp, rfl⟩,
            if_neg (by simpa using Ne.symm hx), Nat.add_zero]
  · -- no page yet: as in `map`
    have hP' : present (S.pte κ d i j) = false := by simpa using hP
    rw [if_neg (by rw [ne_eq, not_not, and_P, hP'])]
    obtain ⟨S₂, h₂, hA₂, M⟩ := P.map h₁ hA₁ hd hi hj (hkern fun h => absurd h hP)
    exact ⟨fun h => absurd h hP, S₂, h₂, hA₂, { M with
      same := fun _ => M.same (not_priv_of_absent hP')
      extra := fun _ => M.extra (not_priv_of_absent hP') }⟩

end mapped

/-! ## The page-fault handler

The handler calls `map_copy` for a write to a page that is present, `map` for a page that is not,
and ends the process for the rest and for addresses below user memory. It has all this from the
error code; whether the code tells the truth is not its concern, and the specification says what
happens for any. -/

theorem and_one_cases (e : Word) : e &&& 0x1#32 = 0#32 ∨ e &&& 0x1#32 = 0x1#32 := by
  have h : (e &&& 0x1#32).toNat = e.toNat % 2 := by
    rw [BitVec.toNat_and]
    exact Nat.and_one_is_mod _
  rw [← BitVec.toNat_inj, ← BitVec.toNat_inj, h]
  exact Nat.mod_two_eq_zero_or_one _

theorem pdi_page (va : Word) : pdi (va &&& Flag.MASK) = pdi va := by
  unfold pdi Flag.MASK
  rw [BitVec.toNat_ushiftRight, BitVec.toNat_ushiftRight, toNat_and_high,
    Nat.shiftRight_eq_div_pow, Nat.shiftRight_eq_div_pow]
  omega

theorem pti_page (va : Word) : pti (va &&& Flag.MASK) = pti va := by
  have hm : (0x3ff#32).toNat = 2 ^ 10 - 1 := by decide
  unfold pti Flag.MASK
  rw [BitVec.toNat_and, BitVec.toNat_and, hm, Nat.and_two_pow_sub_one_eq_mod,
    Nat.and_two_pow_sub_one_eq_mod, BitVec.toNat_ushiftRight, BitVec.toNat_ushiftRight,
    toNat_and_high, Nat.shiftRight_eq_div_pow, Nat.shiftRight_eq_div_pow]
  omega

/-- The handler kills the process before it has done anything. -/
def Refused (va error_code : Word) : Prop :=
  va = 0#32 ∨ error_code &&& 0x7#32 = 0x5#32 ∨ va < 0x80000000#32 ∨
    error_code &&& 0x3#32 ≠ 0x3#32 ∧ error_code &&& 0x1#32 = 0x1#32

theorem pageFault_refused {va error_code : Word} (h : Refused va error_code) :
    wp (pageFault va error_code) (fun _ _ => False) (fun e s' => e = .exit (-1) ∧ s' = s) s := by
  unfold pageFault
  simp only [wp_bind, wp_ite, wp_throw]
  by_cases h0 : va = 0#32
  · rw [if_pos h0]
    exact ⟨trivial, trivial⟩
  rw [if_neg h0]
  by_cases h5 : error_code &&& 0x7#32 = 0x5#32
  · rw [if_pos h5]
    exact ⟨trivial, trivial⟩
  rw [if_neg h5]
  by_cases hlow : va < 0x80000000#32
  · rw [if_pos hlow]
    exact ⟨trivial, trivial⟩
  obtain ⟨h3, h1⟩ := ((h.resolve_left h0).resolve_left h5).resolve_left hlow
  rw [if_neg hlow, if_neg h3, if_pos h1]
  exact ⟨trivial, trivial⟩

/-- The handler allocates a frame, finds a page that is writable already, and kills the process
with the frame in hand. -/
structure Killed (κ : KernelMap) (b : Prop) (n : Nat) (a : Word → Word → Prop) (s : Machine)
    (S : Space) (va error_code : Word) (s' : Machine) : Prop where
  code : error_code &&& 0x3#32 = 0x3#32
  present : present (S.pte κ s.cr3 (pdi va) (pti va)) = true
  writable : writable (S.pte κ s.cr3 (pdi va) (pti va)) = true
  left : ∃ p S', Sound κ b s' S' (n - 4) a ∧ Agrees s' S' ∧ Prepared κ s S s.cr3 (pdi va) p s' S'

/-- `alloc_frame` does not load CR3. -/
theorem Sound.allocFrame_cr3 (h : Sound κ b s S n a) {X : Word → Word → Prog Stop Machine Unit}
    {Q : Unit → Machine → Prop} {E : Stop → Machine → Prop}
    (hX : wp allocFrame (fun p s' => wp (X s.cr3 p) Q E s') E s) :
    wp allocFrame (fun p s' => wp (X s'.cr3 p) Q E s') E s := by
  refine wp_mono (wp_and h.allocFrame_spec hX) (fun p s' ⟨⟨_, _, _, k⟩, hX'⟩ => ?_)
    (fun _ _ he => he.2)
  rw [k.regs.cr3]
  exact hX'

theorem Mapped.invlpg {c : Prop} {s' : Machine} {S' : Space} (M : Mapped κ c s S d i j s' S')
    (tlb : List TlbEntry) : Mapped κ c s S d i j { s' with tlb := tlb } S' :=
  { M with regs := ⟨M.regs.start, M.regs.limit, M.regs.kpd, M.regs.cr3⟩ }

theorem Sound.pageFault_spec (h : Sound κ b s S n a) (hA : Agrees s S) (hd : s.cr3 ∈ S.dirs)
    (va error_code : Word) (hhw : b → 0x80000000#32 ≤ va → error_code &&& 0x1#32 = 0#32 →
      κ.pte (pdi va) (pti va) = 0#32) :
    wp (pageFault va error_code)
      (fun _ s' => ¬ Refused va error_code ∧ (error_code &&& 0x3#32 = 0x3#32 →
          present (S.pte κ s.cr3 (pdi va) (pti va)) = true →
          writable (S.pte κ s.cr3 (pdi va) (pti va)) = false) ∧
        ∃ S', Sound κ b s' S' (n - 4) a ∧ Agrees s' S' ∧ Mapped κ (error_code &&& 0x3#32 = 0x3#32 ∨ priv (S.pte κ s.cr3 (pdi va) (pti va)) = false)
          s S s.cr3 (pdi va) (pti va) s' S')
      (fun e s' => NoTable κ S n s.cr3 (pdi va) e ∨ e = .exit (-1) ∧
        (Refused va error_code ∧ s' = s ∨
          ¬ Refused va error_code ∧ Killed κ b n a s S va error_code s')) s := by
  unfold pageFault
  simp only [wp_bind, wp_ite, wp_throw, wp_getCR3, wp_invlpg]
  have hi := pdi_lt va
  have hj := pti_lt va
  -- the ways in which the handler refuses a fault, in the order in which it tests for them
  by_cases h0 : va = 0#32
  · rw [if_pos h0]
    exact Or.inr ⟨trivial, Or.inl ⟨Or.inl h0, trivial⟩⟩
  rw [if_neg h0]
  by_cases h5 : error_code &&& 0x7#32 = 0x5#32
  · rw [if_pos h5]
    exact Or.inr ⟨trivial, Or.inl ⟨Or.inr (Or.inl h5), trivial⟩⟩
  rw [if_neg h5]
  by_cases hlow : va < 0x80000000#32
  · rw [if_pos hlow]
    exact Or.inr ⟨trivial, Or.inl ⟨Or.inr (Or.inr (Or.inl hlow)), trivial⟩⟩
  rw [if_neg hlow]
  by_cases h3 : error_code &&& 0x3#32 = 0x3#32
  -- a write to a page that is there: `map_copy`
  · rw [if_pos h3]
    have hR : ¬ Refused va error_code := by
      rintro (h | h | h | h)
      · exact h0 h
      · exact h5 h
      · exact hlow h
      · exact h.1 h3
    refine h.allocFrame_cr3 (X := fun cr3 p => mapCopy cr3 (va &&& Flag.MASK) p uFlags) ?_
    unfold mapCopy
    refine h.prepare hA hd (va &&& Flag.MASK) (fun e t he => ?_) fun p s₁ S₁ h₁ hA₁ P => ?_
    · rw [pdi_page] at he
      exact Or.inl he
    · rw [pdi_page] at P ⊢
      rw [pti_page]
      have hcopy := P.mapCopy (E := fun e s' => NoTable κ S n s.cr3 (pdi va) e ∨ e = .exit (-1) ∧
        (Refused va error_code ∧ s' = s ∨
          ¬ Refused va error_code ∧ Killed κ b n a s S va error_code s')) h₁ hA₁ hd hi hj
        fun hP hw => Or.inr ⟨rfl, Or.inr ⟨hR, h3, hP, hw, p, S₁, h₁, hA₁, P⟩⟩
      refine wp_mono hcopy (fun _ s' hpost => ?_) (fun _ _ he => he)
      obtain ⟨hro, S', h', hA', M⟩ := hpost
      exact ⟨hR, fun _ => hro, S', h'.regs s'.cr3 _, hA', Mapped.invlpg { M with
        same := fun _ => M.same trivial
        extra := fun _ => M.extra trivial } _⟩
  · rw [if_neg h3]
    by_cases h1 : error_code &&& 0x1#32 = 0x1#32
    · rw [if_pos h1]
      exact Or.inr ⟨trivial, Or.inl ⟨Or.inr (Or.inr (Or.inr ⟨h3, h1⟩)), trivial⟩⟩
    rw [if_neg h1]
    have hR : ¬ Refused va error_code := by
      rintro (h | h | h | h)
      · exact h0 h
      · exact h5 h
      · exact hlow h
      · exact h1 h.2
    -- no page yet: `map`
    have h10 := (and_one_cases error_code).resolve_right h1
    refine h.allocFrame_cr3 (X := fun cr3 p => map cr3 (va &&& Flag.MASK) p uFlags) ?_
    unfold map
    refine h.prepare hA hd (va &&& Flag.MASK) (fun e t he => ?_) fun p s₁ S₁ h₁ hA₁ P => ?_
    · rw [pdi_page] at he
      exact Or.inl he
    · rw [pdi_page] at P ⊢
      rw [pti_page]
      have hk : b → κ.pte (pdi va) (pti va) = 0#32 := fun hb => hhw hb (BitVec.not_lt.mp hlow) h10
      obtain ⟨S₂, h₂, hA₂, M⟩ := P.map h₁ hA₁ hd hi hj hk
      exact ⟨hR, fun h => absurd h h3, S₂, h₂, hA₂, { M with
        same := fun hc => M.same (hc.resolve_left h3)
        extra := fun hc => M.extra (hc.resolve_left h3) }⟩

end OsKernel.Vmm
