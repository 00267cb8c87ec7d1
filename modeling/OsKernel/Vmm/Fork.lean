import OsKernel.Vmm.Fault

/-!
# `write_protect` and `copy_pd`

Fork takes the write permission from every private page of the parent and then shares what it
can. `write_protect` makes a directory entry read-only too, so that the whole table is shared,
except where the table also holds kernel entries: then the entry stays writable and the table
is copied, its pages shared.

The order of the stores makes the first loop harder than it looks. The directory entry loses
its permission before the table is scanned, and gets it back at the first entry of the kernel;
in between, memory says of a mixed table what `Shape` forbids. The space follows the other
order: pages first, then the directory entry, if there was no kernel entry. So memory and
space disagree in one word (`AgreesBut`) for the length of a scan, and `Protecting` is an
invariant with that exception in it. What the scan does to each word is told again, without a
space and without an order, in `Vmm/Protect.lean`.

`copy_pd` fills the new directory while it is one already: it begins with the kernel's
entries, which is what a new directory holds in the space, and replaces them slot by slot.
`Copying` has one lemma for each branch of the loop. The parent's pages are read-only from
then on, in both, and nobody has been told; `Forked` is what `Process::clone` leaves, for the
parent, the child and the others.
-/

set_option autoImplicit false

namespace OsKernel.Vmm

open Lib Lib.Prog K PhysMem

variable {κ : KernelMap} {b : Prop} {s : Machine} {S : Space} {n : Nat}
  {a : Word → Word → Prop} {d : Word} {i j : Nat}

/-! ## `write_protect`

The directory entry is cleared before the scan of its table and may come back in the middle, so in
between memory and the space disagree about one entry (`AgreesBut`, `Protecting`). Whatever the
order of the kernel's entries and the private ones, the entry that is left is that of the scan's
end.

`Protected` is the result, as a relation between two spaces: permissions have gone, nothing else.
It composes, and data and reference counts do not depend on it. -/

/-- Entries of `d` and of its own tables have lost the write permission; nothing else happened. -/
structure Protected (κ : KernelMap) (s : Machine) (S : Space) (d : Word) (s' : Machine)
    (S' : Space) : Prop where
  dirs : S'.dirs = S.dirs
  tables : S'.tables = S.tables
  home : S'.home = S.home
  extra : S'.extra = S.extra
  dying : S'.dying = S.dying
  ent : ∀ x k, S'.ent x k = S.ent x k ∨
    priv (S.ent x k) = true ∧ writable (S.ent x k) = true ∧ S'.ent x k = protect (S.ent x k)
  other : ∀ x ∈ S.dirs, x ≠ d → ∀ k, k < 1024 → S'.ent x k = S.ent x k ∧
    ∀ l, l < 1024 → S'.pte κ x k l = S.pte κ x k l
  regs : SameMap s s'
  avail : s'.avail = s.avail
  mem : ∀ q, q ∉ S.nodes → s'.mem q = s.mem q

theorem Protected.refl (κ : KernelMap) (s : Machine) (S : Space) (d : Word) :
    Protected κ s S d s S :=
  ⟨rfl, rfl, rfl, rfl, rfl, fun _ _ => Or.inl rfl, fun _ _ _ _ _ => ⟨rfl, fun _ _ => rfl⟩,
    ⟨rfl, rfl, rfl, rfl⟩, rfl, fun _ _ => rfl⟩

section ent

variable {s' : Machine} {S' : Space} (P : Protected κ s S d s' S')

include P

theorem Protected.nodes : S'.nodes = S.nodes := by
  unfold Space.nodes
  rw [P.dirs, P.tables]

theorem Protected.priv_ent (x : Word) (k : Nat) : priv (S'.ent x k) = priv (S.ent x k) := by
  obtain h | ⟨-, -, h⟩ := P.ent x k
  · rw [h]
  · rw [h, priv_protect]

theorem Protected.frame_ent (x : Word) (k : Nat) : frame (S'.ent x k) = frame (S.ent x k) := by
  obtain h | ⟨-, -, h⟩ := P.ent x k
  · rw [h]
  · rw [h, frame_protect]

theorem Protected.pte (x : Word) (k l : Nat) : S'.pte κ x k l = S.pte κ x k l ∨
    priv (S.pte κ x k l) = true ∧ writable (S.pte κ x k l) = true ∧
      S'.pte κ x k l = protect (S.pte κ x k l) := by
  unfold Space.pte
  rw [P.priv_ent, P.frame_ent]
  by_cases hp : priv (S.ent x k) = true
  · rw [if_pos hp, if_pos hp]
    exact P.ent _ l
  · rw [if_neg hp, if_neg hp]
    exact Or.inl rfl

theorem Protected.priv_pte (x : Word) (k l : Nat) :
    Vmm.priv (S'.pte κ x k l) = Vmm.priv (S.pte κ x k l) := by
  obtain he | ⟨-, -, he⟩ := P.pte x k l
  · rw [he]
  · rw [he, priv_protect]

/-- Taking the write permission away changes what nobody sees. -/
theorem Protected.data (H : Shape κ b S) {x : Word} {k l : Nat} (hx : x ∈ S.dirs) (hk : k < 1024)
    (hl : l < 1024) : S'.data κ s' x k l = S.data κ s x k l := by
  have hpf : priv (S'.pte κ x k l) = priv (S.pte κ x k l) ∧
      frame (S'.pte κ x k l) = frame (S.pte κ x k l) := by
    obtain h | ⟨-, -, h⟩ := P.pte x k l
    · rw [h]
      exact ⟨rfl, rfl⟩
    · rw [h]
      exact ⟨priv_protect _, frame_protect _⟩
  unfold Space.data
  rw [hpf.1, hpf.2]
  by_cases hp : Vmm.priv (S.pte κ x k l) = true
  · rw [if_pos hp, if_pos hp]
    exact P.mem _ ((H.pteEntry hx hk hl).page hp)
  · rw [if_neg hp, if_neg hp]

theorem Protected.count_eq (q : Word) : S'.count q = S.count q := by
  have href : S'.ref = S.ref := by
    funext x k
    unfold Space.ref refOf
    rw [P.priv_ent, P.frame_ent]
  unfold Space.count Space.names
  rw [P.dirs, P.nodes, href, P.extra]

theorem Protected.trans {s'' : Machine} {S'' : Space} (Q : Protected κ s' S' d s'' S'') :
    Protected κ s S d s'' S'' where
  dirs := Q.dirs.trans P.dirs
  tables := Q.tables.trans P.tables
  home := Q.home.trans P.home
  extra := Q.extra.trans P.extra
  dying := Q.dying.trans P.dying
  ent x k := by
    obtain h | ⟨hp, hw, h⟩ := Q.ent x k
    · rw [h]
      exact P.ent x k
    · obtain h' | ⟨-, hw', h'⟩ := P.ent x k
      · rw [h'] at hp hw h
        exact Or.inr ⟨hp, hw, h⟩
      · rw [h', writable_protect, hw'] at hw
        exact absurd hw (by simp)
  other x hx hxd k hk := by
    have h := P.other x hx hxd k hk
    have h' := Q.other x (by rw [P.dirs]; exact hx) hxd k hk
    exact ⟨h'.1.trans h.1, fun l hl => (h'.2 l hl).trans (h.2 l hl)⟩
  regs := P.regs.trans Q.regs
  avail := Q.avail.trans P.avail
  mem q hq := (Q.mem q (by rw [P.nodes]; exact hq)).trans (P.mem q hq)

end ent

/-- Memory holds the entries of `S`, except perhaps entry `k` of `y`. -/
def AgreesBut (s : Machine) (S : Space) (y : Word) (k : Nat) : Prop :=
  ∀ x ∈ S.nodes, ∀ i, i < 1024 → ¬ (x = y ∧ i = k) → s.mem x i = S.ent x i

theorem put_protect_extra (S : Space) (x : Word) (k : Nat) :
    (S.put x k (protect (S.ent x k))).extra = S.extra := by
  funext q
  rw [Space.put_extra, refOf_protect]
  show S.extra q + (if refOf (S.ent x k) = some q then 1 else 0) - _ = _
  omega

/-- One page of a table that only slot `i` of `d` names loses the write permission. -/
theorem Sound.protectPte (h : Sound κ b s S n a) (hd : d ∈ S.dirs) (hi : i < 1024) (hj : j < 1024)
    (hp : priv (S.ent d i) = true) (hw : writable (S.ent d i) = true)
    (hpj : priv (S.ent (frame (S.ent d i)) j) = true)
    (hwj : writable (S.ent (frame (S.ent d i)) j) = true) :
    Sound κ b s (S.put (frame (S.ent d i)) j (protect (S.ent (frame (S.ent d i)) j))) n a ∧
      Protected κ s S d s (S.put (frame (S.ent d i)) j (protect (S.ent (frame (S.ent d i)) j))) := by
  have htab := (h.shape.dirEntry d hd i hi).table hp
  have T := h.shape.tableEntry _ htab j hj
  have hwp : writable (protect (S.ent (frame (S.ent d i)) j)) = false := by
    rw [writable_protect, hwj]
    rfl
  have hpp : priv (protect (S.ent (frame (S.ent d i)) j)) = true := by rw [priv_protect, hpj]
  refine ⟨h.put (Space.mem_nodes.mpr (Or.inr htab)) hj (fun q hq => Or.inr ?_)
    (fun hdt => absurd htab (h.shape.disj _ hdt)) (fun _ => ?_) (fun _ _ hw' => ?_)
    (fun q hq hr => ?_), ⟨rfl, rfl, rfl, put_protect_extra S _ j, rfl, fun x k => ?_,
      fun x hx hxd k hk => ⟨?_, fun l _ => ?_⟩, ⟨rfl, rfl, rfl, rfl⟩, rfl, fun _ _ => rfl⟩⟩
  · rwa [refOf_protect] at hq
  · exact {
      kernel := fun hn => by rw [hpp] at hn; exact absurd hn (by simp)
      keeps := fun hb hne => by
        rw [T.keeps hb hne, κ.pte_priv] at hpj
        exact absurd hpj (by simp)
      page := fun _ => by rw [frame_protect]; exact T.page hpj
      notKernel := fun _ => by rw [frame_protect]; exact T.notKernel hpj
      user := fun _ => by rw [user_protect]; exact T.user hpj
      notGlobal := fun _ => by rw [global_protect]; exact T.notGlobal hpj
      single := fun _ hw' => by rw [hwp] at hw'; exact absurd hw' (by simp) }
  · rw [hwp] at hw'
    exact absurd hw' (by simp)
  · obtain ⟨-, rfl⟩ := refOf_eq_some.mp hr
    rw [frame_protect] at hq
    exact T.notKernel hpj (Finset.mem_union_right _ hq)
  · by_cases hxk : x = frame (S.ent d i) ∧ k = j
    · rw [hxk.1, hxk.2, Space.put_ent_self]
      exact Or.inr ⟨hpj, hwj, rfl⟩
    · left
      by_cases hx : x = frame (S.ent d i)
      · rw [hx, Space.put_ent_other fun h => hxk ⟨hx, h⟩]
      · rw [Space.put_ent_ne hx]
  · rw [Space.put_ent_ne]
    rintro rfl
    exact h.shape.disj _ hx htab
  · exact Space.pte_put h.shape hd hi hp hw hx hk fun h => hxd h.1

/-- A directory entry loses the write permission after all pages behind it have. -/
theorem Sound.protectPde (h : Sound κ b s S n a) (hd : d ∈ S.dirs) (hi : i < 1024)
    (hp : priv (S.ent d i) = true) (hw : writable (S.ent d i) = true)
    (hro : ∀ j, j < 1024 → priv (S.ent (frame (S.ent d i)) j) = true →
      writable (S.ent (frame (S.ent d i)) j) = false)
    (hmix : b → global (S.ent d i) = false) :
    Sound κ b s (S.put d i (protect (S.ent d i))) n a ∧
      Protected κ s S d s (S.put d i (protect (S.ent d i))) := by
  have E := h.shape.dirEntry d hd i hi
  have hdt := h.shape.disj d hd
  have hwp : writable (protect (S.ent d i)) = false := by
    rw [writable_protect, hw]
    rfl
  have hpp : priv (protect (S.ent d i)) = true := by rw [priv_protect, hp]
  refine ⟨h.put (Space.mem_nodes.mpr (Or.inl hd)) hi (fun q hq => Or.inr ?_) (fun _ => ?_)
    (fun hdt' => absurd hdt' hdt) (fun hdt' => absurd hdt' hdt) (fun q hq hr => ?_),
    ⟨rfl, rfl, rfl, put_protect_extra S _ i, rfl, fun x k => ?_,
      fun x hx hxd k hk => ⟨?_, fun l _ => ?_⟩, ⟨rfl, rfl, rfl, rfl⟩, rfl, fun _ _ => rfl⟩⟩
  · rwa [refOf_protect] at hq
  · exact {
      kernel := fun hn => by rw [hpp] at hn; exact absurd hn (by simp)
      table := fun _ => by rw [frame_protect]; exact E.table hp
      home := fun _ => by rw [frame_protect]; exact E.home hp
      user := fun _ => by rw [user_protect]; exact E.user hp
      mixed := fun _ => by rw [global_protect]; exact E.mixed hp
      mixedWritable := fun hb _ hg => by
        rw [global_protect, hmix hb] at hg
        exact absurd hg (by simp)
      single := fun _ hw' => by rw [hwp] at hw'; exact absurd hw' (by simp)
      shared := fun _ _ j hj => by rw [frame_protect]; exact hro j hj }
  · obtain ⟨-, rfl⟩ := refOf_eq_some.mp hr
    rw [frame_protect] at hq
    exact h.shape.kernelNodes _ (Space.mem_nodes.mpr (Or.inr (E.table hp)))
      (Finset.mem_union_right _ hq)
  · by_cases hxk : x = d ∧ k = i
    · rw [hxk.1, hxk.2, Space.put_ent_self]
      exact Or.inr ⟨hp, hw, rfl⟩
    · left
      by_cases hx : x = d
      · rw [hx, Space.put_ent_other fun h => hxk ⟨hx, h⟩]
      · rw [Space.put_ent_ne hx]
  · rw [Space.put_ent_ne hxd]
  · refine Space.pte_congr (by rw [Space.put_ent_ne hxd]) fun hpx => ?_
    rw [Space.put_ent_ne]
    rintro hf
    exact hdt (hf ▸ (h.shape.dirEntry x hx k hk).table hpx)

theorem Protected.readOnly {s' : Machine} {S' : Space} (P : Protected κ s S d s' S') {x : Word}
    {k : Nat} (h : writable (S.ent x k) = false) : writable (S'.ent x k) = false := by
  obtain h' | ⟨-, hw, -⟩ := P.ent x k
  · rw [h', h]
  · rw [hw] at h
    exact absurd h (by simp)

/-- Stores into nodes and `invlpg` do not matter. -/
theorem Protected.machine {s' s'' : Machine} {S' : Space} (P : Protected κ s S d s' S')
    (hm : ∀ q, q ∉ S.nodes → s''.mem q = s'.mem q) (hr : SameMap s' s'') (hav : s''.avail = s'.avail) :
    Protected κ s S d s'' S' :=
  { P with
    regs := P.regs.trans hr
    avail := hav.trans P.avail
    mem := fun q hq => (hm q hq).trans (P.mem q hq) }

theorem Protected.slotReadOnly {s' : Machine} {S' : Space} (P : Protected κ s S d s' S') {k : Nat}
    (h : SlotReadOnly S d k) : SlotReadOnly S' d k := by
  intro hp j hj hpj
  rw [P.priv_ent] at hp
  rw [P.frame_ent] at hpj ⊢
  rw [P.priv_ent] at hpj
  exact P.readOnly (h hp j hj hpj)

/-- Slot `k` of `d` while `write_protect` is at entry `j` of its table: the directory entry in
memory says already what it will be if no entry of the kernel is met from here on. -/
structure Protecting (κ : KernelMap) (b : Prop) (n : Nat) (a : Word → Word → Prop) (s : Machine)
    (S : Space) (d : Word) (k : Nat) (j : Nat) (s' : Machine) (S' : Space) : Prop where
  sound : Sound κ b s' S' n a
  done : Protected κ s S d s' S'
  agrees : AgreesBut s' S' d k
  slot : S'.ent d k = S.ent d k
  readOnly : ∀ l, l < j → priv (S'.ent (frame (S.ent d k)) l) = true →
    writable (S'.ent (frame (S.ent d k)) l) = false
  entry : s'.mem d k = protect (S.ent d k) ∧
      (∀ l, l < j → ¬ KernelEntry (S'.ent (frame (S.ent d k)) l)) ∨ s'.mem d k = S.ent d k

/-- One entry of the table. -/
theorem Protecting.step {k : Nat} {s' : Machine} {S' : Space} (hd : d ∈ S.dirs) (hk : k < 1024)
    (hp : priv (S.ent d k) = true) (hw : writable (S.ent d k) = true) (hj : j < 1024)
    (I : Protecting κ b n a s S d k j s' S') (va : Word) :
    wp (do
        if (← load (frame (S.ent d k)) j) &&& (Flag.NG ||| Flag.RW ||| Flag.P) =
            Flag.NG ||| Flag.RW ||| Flag.P then do
          store (frame (S.ent d k)) j ((← load (frame (S.ent d k)) j) ^^^ Flag.RW)
          invlpg va
        else if (← load (frame (S.ent d k)) j) &&& (Flag.NG ||| Flag.RW ||| Flag.P) =
            Flag.RW ||| Flag.P then
          store d k ((← load d k) ||| Flag.RW))
      (fun _ s'' => ∃ S'', Protecting κ b n a s S d k (j + 1) s'' S'') (fun _ _ => False) s' := by
  have hd' : d ∈ S'.dirs := by rw [I.done.dirs]; exact hd
  have hdn : d ∈ S'.nodes := Space.mem_nodes.mpr (Or.inl hd')
  have hp' : priv (S'.ent d k) = true := by rw [I.slot]; exact hp
  have hw' : writable (S'.ent d k) = true := by rw [I.slot]; exact hw
  have htab := (I.sound.shape.dirEntry d hd' k hk).table hp'
  rw [I.slot] at htab
  have htn : frame (S.ent d k) ∈ S'.nodes := Space.mem_nodes.mpr (Or.inr htab)
  have hdt : d ≠ frame (S.ent d k) := by
    intro h
    exact I.sound.shape.disj d hd' (by rw [h]; exact htab)
  have hload : s'.mem (frame (S.ent d k)) j = S'.ent (frame (S.ent d k)) j :=
    I.agrees _ htn j hj fun h => hdt h.1.symm
  have hnodes := I.done.nodes
  simp only [wp_bind, wp_load, wp_ite, wp_pure, wp_store, wp_invlpg, hload]
  by_cases h1 : priv (S'.ent (frame (S.ent d k)) j) = true ∧
      writable (S'.ent (frame (S.ent d k)) j) = true
  · -- a writable page
    rw [if_pos (and_NG_RW_P.mpr h1)]
    obtain ⟨h₂, P₂⟩ := I.sound.protectPte hd' hk hj hp' hw' (by rw [I.slot]; exact h1.1)
      (by rw [I.slot]; exact h1.2)
    rw [I.slot] at h₂ P₂
    have h₃ := (h₂.store (h₂.shape.held_node htn) (I.sound.shape.kernelNodes _ htn)
      (Function.update (s'.mem (frame (S.ent d k))) j
        (protect (S'.ent (frame (S.ent d k)) j)))).regs s'.cr3
        (s'.tlb.filter fun e => e.page ≠ va &&& 0xfffff000#32)
    refine ⟨_, h₃, I.done.trans (P₂.machine (fun q hq => ?_) ⟨rfl, rfl, rfl, rfl⟩ rfl),
      fun x hx i hi hne => ?_, ?_, fun l hl => ?_, ?_⟩
    · exact Function.update_of_ne (by rintro rfl; exact hq htn) _ _
    · show Function.update s'.mem _ _ x i = _
      by_cases hxt : x = frame (S.ent d k)
      · rw [hxt, Function.update_self]
        by_cases hij : i = j
        · rw [hij, Function.update_self, Space.put_ent_self]
          rfl
        · rw [Function.update_of_ne hij, Space.put_ent_other hij]
          exact I.agrees _ htn i hi fun h => hdt h.1.symm
      · rw [Function.update_of_ne hxt, Space.put_ent_ne hxt]
        exact I.agrees x hx i hi hne
    · rw [Space.put_ent_ne hdt]
      exact I.slot
    · by_cases hlj : l = j
      · rw [hlj, Space.put_ent_self, writable_protect, h1.2]
        exact fun _ => rfl
      · rw [Space.put_ent_other hlj]
        exact I.readOnly l (by omega)
    · have hmd : Function.update s'.mem (frame (S.ent d k)) (Function.update
          (s'.mem (frame (S.ent d k))) j (protect (S'.ent (frame (S.ent d k)) j))) d k = s'.mem d k := by
        rw [Function.update_of_ne hdt]
      refine I.entry.imp (fun hent => ⟨hmd.trans hent.1, fun l hl => ?_⟩) fun hm => hmd.trans hm
      by_cases hlj : l = j
      · rw [hlj, Space.put_ent_self]
        intro hke
        have := hke.priv
        rw [priv_protect, h1.1] at this
        exact absurd this (by simp)
      · rw [Space.put_ent_other hlj]
        exact hent.2 l (by omega)
  · rw [if_neg (fun h => h1 (and_NG_RW_P.mp h))]
    have hro : priv (S'.ent (frame (S.ent d k)) j) = true →
        writable (S'.ent (frame (S.ent d k)) j) = false := by
      intro hpj
      by_contra hne
      exact h1 ⟨hpj, by simpa using hne⟩
    have hro' : ∀ l, l < j + 1 → priv (S'.ent (frame (S.ent d k)) l) = true →
        writable (S'.ent (frame (S.ent d k)) l) = false := by
      intro l hl
      by_cases hlj : l = j
      · rw [hlj]
        exact hro
      · exact I.readOnly l (by omega)
    by_cases h2 : present (S'.ent (frame (S.ent d k)) j) = true ∧
        writable (S'.ent (frame (S.ent d k)) j) = true ∧
        nonGlobal (S'.ent (frame (S.ent d k)) j) = false
    · -- an entry of the kernel: the directory entry stays writable
      rw [if_pos (and_eq_RW_P.mpr h2)]
      have hval : s'.mem d k ||| Flag.RW = S.ent d k := by
        obtain ⟨hm, -⟩ | hm := I.entry
        · rw [hm, protect_or_RW hw]
        · rw [hm, or_RW hw]
      refine ⟨S', I.sound.store (I.sound.shape.held_node hdn) (I.sound.shape.kernelNodes _ hdn) _,
        I.done.machine (fun q hq => ?_) ⟨rfl, rfl, rfl, rfl⟩ rfl, fun x hx i hi hne => ?_, I.slot,
        hro', Or.inr ?_⟩
      · exact Function.update_of_ne (by rintro rfl; exact hq (hnodes ▸ hdn)) _ _
      · show Function.update s'.mem d _ x i = _
        by_cases hxd : x = d
        · have hik : i ≠ k := fun h => hne ⟨hxd, h⟩
          rw [hxd, Function.update_self, Function.update_of_ne hik]
          exact I.agrees d hdn i hi fun h => hik h.2
        · rw [Function.update_of_ne hxd]
          exact I.agrees x hx i hi hne
      · show Function.update s'.mem d _ d k = _
        rw [Function.update_self, Function.update_self, hval]
    -- nothing is stored; the directory entry is as it was, so no writable kernel entry was met
    -- yet
    · rw [if_neg (fun h => h2 (and_eq_RW_P.mp h))]
      refine ⟨S', { I with
        readOnly := hro'
        entry := I.entry.imp (fun hent => ⟨hent.1, fun l hl => ?_⟩) id }⟩
      by_cases hlj : l = j
      · rw [hlj]
        exact fun hke => h2 ⟨hke.present, hke.writable, hke.nonGlobal⟩
      · exact hent.2 l (by omega)

/-- The directory entry is what the loop over its table has left in memory. -/
theorem Protecting.finish {k : Nat} {s' : Machine} {S' : Space} (hd : d ∈ S.dirs) (hk : k < 1024)
    (hp : priv (S.ent d k) = true) (hw : writable (S.ent d k) = true)
    (I : Protecting κ b n a s S d k 1024 s' S') :
    ∃ S'', Sound κ b s' S'' n a ∧ Protected κ s S d s' S'' ∧ Agrees s' S'' ∧ SlotReadOnly S'' d k := by
  have hd' : d ∈ S'.dirs := by rw [I.done.dirs]; exact hd
  have hp' : priv (S'.ent d k) = true := by rw [I.slot]; exact hp
  have hw' : writable (S'.ent d k) = true := by rw [I.slot]; exact hw
  have E := I.sound.shape.dirEntry d hd' k hk
  have hslot : SlotReadOnly S' d k := by
    intro _ j hj
    rw [I.slot]
    exact I.readOnly j hj
  by_cases hm : s'.mem d k = S.ent d k
  · refine ⟨S', I.sound, I.done, fun x hx i hi => ?_, hslot⟩
    by_cases hne : x = d ∧ i = k
    · rw [hne.1, hne.2, hm, I.slot]
    · exact I.agrees x hx i hi hne
  · obtain ⟨hm', hnk⟩ := I.entry.resolve_right hm
    -- no entry of the kernel was met, so the table is not a mixed one
    have hmix : b → global (S'.ent d k) = false := by
      intro hb
      by_contra hg
      obtain ⟨j, hj, hne⟩ := κ.used k ((E.mixed hp').mp (by simpa using hg))
      have T := I.sound.shape.tableEntry _ (E.table hp') j hj
      rw [E.home hp'] at T
      have hke := (κ.pteOk k j).resolve_left hne
      rw [← T.keeps hb hne, I.slot] at hke
      exact hnk j hj hke
    obtain ⟨h₂, P₂⟩ := I.sound.protectPde hd' hk hp' hw' (hslot hp') hmix
    refine ⟨_, h₂, I.done.trans P₂, fun x hx i hi => ?_, P₂.slotReadOnly hslot⟩
    by_cases hxd : x = d
    · by_cases hik : i = k
      · rw [hxd, hik, Space.put_ent_self, hm', I.slot]
      · rw [hxd, Space.put_ent_other hik]
        exact I.agrees d (Space.mem_nodes.mpr (Or.inl hd')) i hi fun h => hik h.2
    · rw [Space.put_ent_ne hxd]
      exact I.agrees x hx i hi fun h => hxd h.1

theorem Sound.writeProtect_spec (h : Sound κ b s S n a) (hA : Agrees s S) (hd : d ∈ S.dirs) :
    wp (writeProtect d) (fun _ s' => ∃ S', Sound κ b s' S' n a ∧ Agrees s' S' ∧
        Protected κ s S d s' S' ∧ ∀ k, k < 1024 → SlotReadOnly S' d k) (fun _ _ => False) s := by
  unfold writeProtect
  refine wp_mono (wp_forI (n := PAGES_PER_TABLE) (I := fun k s' => ∃ S', Sound κ b s' S' n a ∧
    Protected κ s S d s' S' ∧ Agrees s' S' ∧ ∀ l, l < k → SlotReadOnly S' d l)
    (fun k (hk : k < 1024) s' hinv => ?_)
    ⟨S, h, Protected.refl κ s S d, hA, fun l hl => absurd hl (Nat.not_lt_zero l)⟩)
    (fun _ s' hpost => by
      obtain ⟨S', h', P, hA', hro⟩ := hpost
      exact ⟨S', h', hA', P, hro⟩)
    (fun _ _ he => he)
  obtain ⟨S', h', P, hA', hro⟩ := hinv
  have hd' : d ∈ S'.dirs := by rw [P.dirs]; exact hd
  have hdn : d ∈ S'.nodes := Space.mem_nodes.mpr (Or.inl hd')
  have hload := hA' d hdn k hk
  have hlast : ∀ {S'' : Space}, (∀ l, l < k → SlotReadOnly S'' d l) → SlotReadOnly S'' d k →
      ∀ l, l < k + 1 → SlotReadOnly S'' d l := by
    intro S'' h1 h2 l hl
    obtain hlk | rfl := Nat.lt_succ_iff_lt_or_eq.mp hl
    · exact h1 l hlk
    · exact h2
  simp only [wp_bind, wp_load, wp_ite, hload]
  by_cases hpw : priv (S'.ent d k) = true ∧ writable (S'.ent d k) = true
  · rw [if_pos (and_NG_RW_P.mpr hpw)]
    simp only [wp_store, Function.update_self]
    have hfr : (S'.ent d k ^^^ Flag.RW) &&& Flag.MASK = frame (S'.ent d k) := frame_protect _
    rw [hfr]
    -- the loop over the table begins with its directory entry read-only in memory, but not yet in
    -- the space
    have h0 : Protecting κ b n a s' S' d k 0 (s'.put d k (S'.ent d k ^^^ Flag.RW)) S' := {
      sound := h'.store (h'.shape.held_node hdn) (h'.shape.kernelNodes _ hdn) _
      done := (Protected.refl κ s' S' d).machine
        (fun q hq => Function.update_of_ne (by rintro rfl; exact hq hdn) _ _)
        ⟨rfl, rfl, rfl, rfl⟩ rfl
      agrees := fun x hx i hi hne => by
        show Function.update s'.mem d _ x i = _
        by_cases hxd : x = d
        · have hik : i ≠ k := fun h => hne ⟨hxd, h⟩
          rw [hxd, Function.update_self, Function.update_of_ne hik]
          exact hA' d hdn i hi
        · rw [Function.update_of_ne hxd]
          exact hA' x hx i hi
      slot := rfl
      readOnly := fun l hl => absurd hl (Nat.not_lt_zero l)
      entry := Or.inl ⟨by
        show Function.update s'.mem d _ d k = _
        rw [Function.update_self, Function.update_self]
        rfl, fun l hl => absurd hl (Nat.not_lt_zero l)⟩ }
    refine wp_mono (wp_forI (n := PAGES_PER_TABLE)
      (I := fun j s'' => ∃ S'', Protecting κ b n a s' S' d k j s'' S'')
      (fun j (hj : j < 1024) s'' hinv =>
        hinv.elim fun S'' I => Protecting.step hd' hk hpw.1 hpw.2 hj I _) ⟨S', h0⟩)
      (fun _ s'' hpost => ?_) (fun _ _ he => he)
    obtain ⟨S'', I⟩ := hpost
    -- at its end memory has the entry that the space then gets
    obtain ⟨S₃, h₃, P₃, hA₃, hslot⟩ := Protecting.finish hd' hk hpw.1 hpw.2 I
    exact ⟨S₃, h₃, P.trans P₃, hA₃, hlast (fun l hl => P₃.slotReadOnly (hro l hl)) hslot⟩
  · rw [if_neg (fun h => hpw (and_NG_RW_P.mp h))]
    refine ⟨S', h', P, hA', hlast hro fun hp j hj hpj => ?_⟩
    have hw : writable (S'.ent d k) = false := by
      by_contra hne
      exact hpw ⟨hp, by simpa using hne⟩
    exact (h'.shape.dirEntry d hd' k hk).shared hp hw j hj hpj

/-! ## New directories -/

/-- `d'` is a new directory, and nobody notices. -/
structure Born (κ : KernelMap) (s : Machine) (S : Space) (d' : Word) (s' : Machine) (S' : Space) :
    Prop where
  fresh : S.own κ d' = .none
  dirs : S'.dirs = insert d' S.dirs
  extra : S'.extra = S.extra
  dying : S'.dying = S.dying
  kept : Kept (Held (S.own κ)) s s'
  nodes : S.nodes ⊆ S'.nodes
  ent : ∀ x ∈ S.nodes, S'.ent x = S.ent x

namespace Born

variable {d' : Word} {s' : Machine} {S' : Space}

theorem pte (B : Born κ s S d' s' S') (H : Shape κ b S) {x : Word} {k : Nat} (hx : x ∈ S.dirs)
    (hk : k < 1024) (l : Nat) : S'.pte κ x k l = S.pte κ x k l := by
  refine Space.pte_congr (by rw [B.ent x (Space.mem_nodes.mpr (Or.inl hx))]) fun hp => ?_
  rw [B.ent _ (Space.mem_nodes.mpr (Or.inr ((H.dirEntry x hx k hk).table hp)))]

theorem data (B : Born κ s S d' s' S') (H : Shape κ b S) {x : Word} {k l : Nat} (hx : x ∈ S.dirs)
    (hk : k < 1024) (hl : l < 1024) : S'.data κ s' x k l = S.data κ s x k l := by
  refine Space.data_of_pte (B.pte H hx hk l) fun hp => ?_
  rw [B.kept.mem _ (H.held_pte hx hk hl hp)]

end Born

/-- A frame just allocated becomes a directory. -/
theorem Sound.newDir (h : Sound κ b s S n a) {d' : Word} {s₁ : Machine}
    (hfree : S.own κ d' = .none) (h₁ : Sound κ b s₁ (S.give d') n a)
    (k₁ : Kept (Held (S.own κ)) s s₁) :
    Sound κ b s₁ ((S.give d').addDir κ d') n a ∧
      Born κ s S d' s₁ ((S.give d').addDir κ d') := by
  have P := InHand.of_alloc h.shape hfree
  refine ⟨h₁.addDir P.node P.names (by rw [P.extra]; exact Nat.one_pos) P.kernel, {
    fresh := hfree
    dirs := rfl
    extra := ?_
    dying := rfl
    kept := k₁
    nodes := fun x hx => by rw [Space.addDir_nodes]; exact Finset.mem_insert_of_mem hx
    ent := fun x hx => Space.addDir_ent_ne (by rintro rfl; exact P.node hx) }⟩
  funext q
  by_cases hq : q = d'
  · rw [hq, Space.addDir_extra_self, Space.give_extra_self, Nat.add_sub_cancel]
  · rw [Space.addDir_extra_ne hq, Space.give_extra_ne hq]

/-- A new process sees the kernel's map and nothing else. -/
theorem Sound.copyKpd_spec (h : Sound κ b s S n a) (hA : Agrees s S) :
    wp copyKpd (fun d' s' => ∃ S', Sound κ b s' S' (n - 2) a ∧ Agrees s' S' ∧ Born κ s S d' s' S' ∧
        (∀ k, S'.ent d' k = κ.pde k) ∧ ∀ k l, S'.pte κ d' k l = κ.pte k l)
      (fun e _ => e = .noFrames ∧ n < 2) s := by
  unfold copyKpd
  simp only [wp_bind, wp_get, wp_memcpy, wp_pure]
  refine wp_mono h.allocFrame_spec (fun d' s₁ hpost => ?_) (fun _ _ he => he)
  obtain ⟨hfree, _, h₁, k₁⟩ := hpost
  obtain ⟨h₂, B⟩ := (h.weaken (Nat.sub_le n 2)).newDir hfree h₁ k₁
  have hent : ((S.give d').addDir κ d').ent d' = κ.pde := Space.addDir_ent_self
  have hheld := h₂.shape.held_node (Space.mem_nodes.mpr (Or.inl (Finset.mem_insert_self d' _)))
  refine ⟨_, h₂.store hheld (h.shape.not_kernel_of_free hfree) _, fun x hx i hi => ?_,
    { B with kept := k₁.store (fun hh => hh hfree) _ }, fun k => by rw [hent], fun k l => ?_⟩
  · show Function.update s₁.mem d' (s₁.mem s₁.kpd) x i = _
    by_cases hxd : x = d'
    · rw [hxd, Function.update_self, h₁.kernel.kpd, h₁.kernel.pde i hi, hent]
    · rw [Space.addDir_nodes] at hx
      have hxn : x ∈ S.nodes := (Finset.mem_insert.mp hx).resolve_left hxd
      rw [Function.update_of_ne hxd, B.ent x hxn, k₁.mem x (h.shape.held_node hxn)]
      exact hA x hxn i hi
  · rw [Space.pte_of_not_priv (by rw [hent]; exact κ.pde_priv k)]

/-! ## `copy_pd`

The loop has three cases for a slot that is in use. A table of the kernel's is shared without a
reference; a table that is read-only is shared with one; and a table that had to stay writable,
for kernel entries among its own, is copied and its pages are shared. `Copying` is the state in
the middle, where the new directory shows the first `k` slots of the old one, and there is one
lemma for each case. -/

/-- `copy_pd` at entry `k`: the new directory `d'` has the first `k` entries of `d`, with tables of
its own where the entry is writable. -/
structure Copying (κ : KernelMap) (b : Prop) (a : Word → Word → Prop) (s : Machine) (S : Space)
    (d d' : Word) (k : Nat) (s' : Machine) (S' : Space) : Prop where
  sound : Sound κ b s' S' 0 a
  born : Born κ s S d' s' S'
  held : ∀ q, Held (S.own κ) q → Held (S'.own κ) q
  agrees : ∀ x ∈ S'.nodes, x ≠ d' → ∀ i, i < 1024 → s'.mem x i = S'.ent x i
  filled : ∀ i, i < 1024 → s'.mem d' i = if i < k then S'.ent d' i else 0#32
  rest : ∀ i, k ≤ i → S'.ent d' i = κ.pde i
  kernel : ∀ i, i < k → priv (S.ent d i) = false → S'.ent d' i = S.ent d i
  copied : ∀ i, i < k → priv (S.ent d i) = true → priv (S'.ent d' i) = true ∧
    ∀ j, j < 1024 → S'.ent (frame (S'.ent d' i)) j = S.ent (frame (S.ent d i)) j

namespace Copying

variable {d' : Word} {k : Nat} {s' s₁ : Machine} {S' S'' : Space} {e : Word}

theorem dir (I : Copying κ b a s S d d' k s' S') : d' ∈ S'.dirs := by
  rw [I.born.dirs]
  exact Finset.mem_insert_self _ _

theorem node (I : Copying κ b a s S d d' k s' S') : d' ∈ S'.nodes :=
  Space.mem_nodes.mpr (Or.inl I.dir)

/-- The slots not reached yet show the kernel's entries, which are not private. -/
theorem rest_ref (I : Copying κ b a s S d d' k s' S') : S'.ref d' k = none :=
  refOf_eq_none.mpr (by rw [I.rest k (Nat.le_refl k)]; exact κ.pde_priv k)

/-- An old node is not the new directory. -/
theorem ne_of_node (I : Copying κ b a s S d d' k s' S') (H : Shape κ b S) {x : Word}
    (hx : x ∈ S.nodes) : x ≠ d' := by
  rintro rfl
  exact H.held_node hx I.born.fresh

/-- The next entry has been stored. -/
theorem advance (I : Copying κ b a s S d d' k s' S') (H : Shape κ b S) (hk : k < 1024)
    (h'' : Sound κ b s₁ S'' 0 a) (k₁ : Kept (fun q => Held (S'.own κ) q ∧ q ≠ d') s' s₁)
    (hme : s₁.mem d' k = e) (hmo : ∀ i, i ≠ k → s₁.mem d' i = s'.mem d' i)
    (hdirs : S''.dirs = S'.dirs) (hnodes : S'.nodes ⊆ S''.nodes) (hextra : S''.extra = S'.extra)
    (hdying : S''.dying = S'.dying)
    (hent : ∀ x ∈ S'.nodes, x ≠ d' → S''.ent x = S'.ent x)
    (hself : S''.ent d' k = e) (hother : ∀ i, i ≠ k → S''.ent d' i = S'.ent d' i)
    (hnew : ∀ x ∈ S''.nodes, x ∉ S'.nodes → ∀ i, i < 1024 → s₁.mem x i = S''.ent x i)
    (hheld : ∀ q, Held (S'.own κ) q → Held (S''.own κ) q)
    (hkern : priv (S.ent d k) = false → e = S.ent d k)
    (hcopy : priv (S.ent d k) = true → priv e = true ∧
      ∀ j, j < 1024 → S''.ent (frame e) j = S.ent (frame (S.ent d k)) j) :
    Copying κ b a s S d d' (k + 1) s₁ S'' := by
  have hlt : ∀ i, i < k + 1 → i = k ∨ i < k ∧ i ≠ k := by omega
  refine {
    sound := h''
    born := {
      fresh := I.born.fresh
      dirs := hdirs.trans I.born.dirs
      extra := hextra.trans I.born.extra
      dying := hdying.trans I.born.dying
      kept := I.born.kept.trans (k₁.weaken fun q hq => ⟨I.held q hq, by
        rintro rfl
        exact hq I.born.fresh⟩)
      nodes := I.born.nodes.trans hnodes
      ent := fun x hx => ?_ }
    held := fun q hq => hheld q (I.held q hq)
    agrees := fun x hx hxd i hi => ?_
    filled := fun i hi => ?_
    rest := fun i hi => by
      rw [hother i (by omega)]
      exact I.rest i (by omega)
    kernel := fun i hi hn => ?_
    copied := fun i hi hp => ?_ }
  · rw [hent x (I.born.nodes hx) (I.ne_of_node H hx)]
    exact I.born.ent x hx
  · by_cases hx' : x ∈ S'.nodes
    · rw [hent x hx' hxd, k₁.mem x ⟨I.sound.shape.held_node hx', hxd⟩]
      exact I.agrees x hx' hxd i hi
    · exact hnew x hx hx' i hi
  · by_cases hik : i = k
    · rw [hik, hme, if_pos (Nat.lt_succ_self k), hself]
    · rw [hmo i hik, hother i hik, I.filled i hi]
      exact if_congr (by omega) rfl rfl
  · obtain rfl | ⟨hlt, hne⟩ := hlt i hi
    · rw [hself]
      exact hkern hn
    · rw [hother i hne]
      exact I.kernel i hlt hn
  · obtain rfl | ⟨hlt, hne⟩ := hlt i hi
    · rw [hself]
      exact hcopy hp
    · obtain ⟨hp', hc⟩ := I.copied i hlt hp
      rw [hother i hne]
      refine ⟨hp', fun j hj => ?_⟩
      have htab := (I.sound.shape.dirEntry d' I.dir i (by omega)).table hp'
      have htd : frame (S'.ent d' i) ≠ d' := by
        intro hf
        exact I.sound.shape.disj d' I.dir (by rw [← hf]; exact htab)
      rw [hent _ (Space.mem_nodes.mpr (Or.inr htab)) htd]
      exact hc j hj

/-- The entry to copy, as `copy_pd` reads it. -/
theorem load (I : Copying κ b a s S d d' k s' S') (H : Shape κ b S) (hA : Agrees s S)
    (hd : d ∈ S.dirs) (hk : k < 1024) : s'.mem d k = S.ent d k := by
  have hdn : d ∈ S.nodes := Space.mem_nodes.mpr (Or.inl hd)
  rw [I.born.kept.mem d (H.held_node hdn)]
  exact hA d hdn k hk

/-- What the rest of the loop's body may rely on. -/
theorem entry (I : Copying κ b a s S d d' k s' S') (hd : d ∈ S.dirs) (hk : k < 1024) :
    d ∈ S'.dirs ∧ S'.ent d k = S.ent d k ∧ DirEntry κ b S' k (S.ent d k) := by
  have hd' : d ∈ S'.dirs := by
    rw [I.born.dirs]
    exact Finset.mem_insert_of_mem hd
  have hent : S'.ent d k = S.ent d k := by
    rw [I.born.ent d (Space.mem_nodes.mpr (Or.inl hd))]
  refine ⟨hd', hent, ?_⟩
  have E := I.sound.shape.dirEntry d hd' k hk
  rwa [hent] at E

/-- The table of a private slot shows what it did when the copy began. -/
theorem table_ent (I : Copying κ b a s S d d' k s' S') (H : Shape κ b S) (hd : d ∈ S.dirs)
    (hk : k < 1024) (hp : priv (S.ent d k) = true) :
    S'.ent (frame (S.ent d k)) = S.ent (frame (S.ent d k)) :=
  I.born.ent _ (Space.mem_nodes.mpr (Or.inr ((H.dirEntry d hd k hk).table hp)))

/-- A slot without an entry: the new directory keeps its zero. -/
theorem skip (I : Copying κ b a s S d d' k s' S') (hd : d ∈ S.dirs) (hk : k < 1024)
    (hP : present (S.ent d k) = false) : Copying κ b a s S d d' (k + 1) s' S' := by
  obtain ⟨-, -, E⟩ := I.entry hd hk
  have hk0 := E.kernel (not_priv_of_absent hP)
  refine { I with
    filled := fun i hi => ?_
    rest := fun i hi => I.rest i (by omega)
    kernel := fun i hi hn => ?_
    copied := fun i hi hp => ?_ }
  · rw [I.filled i hi]
    by_cases hik : i = k
    · have h0 : κ.pde k = 0#32 := by
        obtain h0 | h0 := κ.pdeOk k
        · exact h0
        · rw [hk0, h0.present] at hP
          exact absurd hP (by simp)
      rw [hik, if_neg (Nat.lt_irrefl k), if_pos (Nat.lt_succ_self k), I.rest k (Nat.le_refl k), h0]
    · exact if_congr (by omega) rfl rfl
  · by_cases hik : i = k
    · rw [hik, I.rest k (Nat.le_refl k), hk0]
    · exact I.kernel i (by omega) hn
  · by_cases hik : i = k
    · rw [hik, not_priv_of_absent hP] at hp
      exact absurd hp (by simp)
    · exact I.copied i (by omega) hp

/-- A table of the kernel is shared without a reference. -/
theorem shareKernel (I : Copying κ b a s S d d' k s' S') (H : Shape κ b S) (hd : d ∈ S.dirs)
    (hk : k < 1024) (hp : priv (S.ent d k) = false) :
    Copying κ b a s S d d' (k + 1) (s'.put d' k (S.ent d k)) S' := by
  obtain ⟨-, -, E⟩ := I.entry hd hk
  refine I.advance H hk (I.sound.store (I.sound.shape.held_node I.node)
    (I.sound.shape.kernelNodes _ I.node) _) (Kept.store (Kept.refl _ s') (fun h => h.2 rfl) _)
    ?_ (fun i hi => ?_) rfl (Finset.Subset.refl _) rfl rfl (fun _ _ _ => rfl) ?_ (fun _ _ => rfl)
    (fun x hx hx' => absurd hx hx') (fun _ h => h) (fun _ => rfl)
    (fun h => by rw [hp] at h; exact absurd h (by simp))
  · show Function.update s'.mem d' _ d' k = _
    rw [Function.update_self, Function.update_self]
  · show Function.update s'.mem d' _ d' i = _
    rw [Function.update_self, Function.update_of_ne hi]
  · rw [I.rest k (Nat.le_refl k), ← E.kernel hp]

/-- A read-only table is shared, with one more reference. -/
theorem shareTable (I : Copying κ b a s S d d' k s' S') (H : Shape κ b S) (hd : d ∈ S.dirs)
    (hk : k < 1024) (hp : priv (S.ent d k) = true) (hw : writable (S.ent d k) = false) :
    wp (incref (frame (S.ent d k))) (fun _ s'' => ∃ S'', Copying κ b a s S d d' (k + 1) s'' S'')
      (fun e _ => e = .refOverflow) (s'.put d' k (S.ent d k)) := by
  obtain ⟨hd', hent, E⟩ := I.entry hd hk
  have hdn' : d ∈ S'.nodes := Space.mem_nodes.mpr (Or.inl hd')
  have htab := E.table hp
  have hft : frame (S.ent d k) ≠ d' := by
    intro hf
    exact I.sound.shape.disj d' I.dir (by rw [← hf]; exact htab)
  have h₁ : Sound κ b (s'.put d' k (S.ent d k)) S' 0 a :=
    I.sound.store (I.sound.shape.held_node I.node) (I.sound.shape.kernelNodes _ I.node) _
  refine wp_mono (h₁.incref_spec (I.sound.shape.held _ htab) fun x hx i hi hpx hfx => ?_)
    (fun _ s₂ ⟨h₂, k₂⟩ => ?_) (fun _ _ he => he)
  · exact I.sound.shape.readOnly_of_readOnly hdn' hk (by rw [hent]; exact hp)
      (by rw [hent]; exact hw) hx hi hpx (by rw [hent]; exact hfx)
  have E₂ := h₂.shape.dirEntry d hd' k hk
  rw [Space.give_ent, hent] at E₂
  have hr : refOf (S.ent d k) = some (frame (S.ent d k)) := refOf_eq_some.mpr ⟨hp, rfl⟩
  have hr' : (S'.give (frame (S.ent d k))).ref d' k = none := I.rest_ref
  have hin : ∀ q, refOf (S.ent d k) = some q → 0 < (S'.give (frame (S.ent d k))).extra q ∨
      (S'.give (frame (S.ent d k))).ref d' k = some q := by
    intro q hq
    obtain ⟨-, rfl⟩ := refOf_eq_some.mp hq
    rw [Space.give_extra_self]
    exact Or.inl (Nat.succ_pos _)
  -- the new entry takes the reference that `incref` has put in hand
  have h₃ := h₂.put (x := d') (i := k) (e := S.ent d k) I.node hk hin (fun _ => E₂)
    (fun ht => absurd ht (I.sound.shape.disj d' I.dir))
    (fun ht => absurd ht (I.sound.shape.disj d' I.dir)) (fun q hq hrq => by
      obtain ⟨-, rfl⟩ := refOf_eq_some.mp hrq
      exact I.sound.shape.kernelNodes _ (Space.mem_nodes.mpr (Or.inr htab))
        (Finset.mem_union_right _ hq))
  refine ⟨_, I.advance H hk h₃ ((Kept.store (Kept.refl _ s') (fun h => h.2 rfl) _).trans
    (k₂.weaken fun q hq => hq.1)) ?_ (fun i hi => ?_) rfl (Finset.Subset.refl _) ?_ rfl
    (fun x _ hxd => Space.put_ent_ne hxd) Space.put_ent_self
    (fun i hi => Space.put_ent_other hi) (fun x hx hx' => absurd hx hx') (fun q hq => ?_)
    (fun _ => rfl) (fun _ => ⟨hp, fun j _ => ?_⟩)⟩
  · rw [k₂.mem d' (I.sound.shape.held_node I.node)]
    show Function.update s'.mem d' _ d' k = _
    rw [Function.update_self, Function.update_self]
  · rw [k₂.mem d' (I.sound.shape.held_node I.node)]
    show Function.update s'.mem d' _ d' i = _
    rw [Function.update_self, Function.update_of_ne hi]
  · funext q
    rw [Space.put_extra, hr', hr, if_neg (by simp), Nat.add_zero]
    by_cases hq : q = frame (S.ent d k)
    · rw [hq, if_pos rfl, Space.give_extra_self, Nat.add_sub_cancel]
    · rw [if_neg (by simpa using Ne.symm hq), Space.give_extra_ne hq, Nat.sub_zero]
  · refine Space.held_of_count_le hq (fun x => ?_) rfl
    have hc := Space.count_put (S := S'.give (frame (S.ent d k))) (x := d') I.node hk hin x
    rw [Space.count_give] at hc
    omega
  · rw [Space.put_ent_ne hft, Space.give_ent, I.table_ent H hd hk hp]

/-- A table that must stay writable, for the kernel's entries in it, is copied; its pages are
shared. -/
theorem copyTable (I : Copying κ b a s S d d' k s' S') (H : Shape κ b S)
    (hd : d ∈ S.dirs) (hro : SlotReadOnly S d k) (hk : k < 1024) (hp : priv (S.ent d k) = true)
    (hw : writable (S.ent d k) = true) :
    wp (copyPt (frame (S.ent d k))) (fun t s'' => ∃ S'',
        Copying κ b a s S d d' (k + 1) (s''.put d' k (t ||| lowBits (S.ent d k))) S'')
      (fun e _ => e = .noFrames ∨ e = .refOverflow) s' := by
  obtain ⟨hd', hent, E⟩ := I.entry hd hk
  have htn : frame (S.ent d k) ∈ S.nodes :=
    Space.mem_nodes.mpr (Or.inr ((H.dirEntry d hd k hk).table hp))
  have htd : frame (S.ent d k) ≠ d' := I.ne_of_node H htn
  have hsrc : ∀ j, S'.pte κ d k j = S.ent (frame (S.ent d k)) j := by
    intro j
    rw [Space.pte_of_priv (by rw [hent]; exact hp), hent, I.table_ent H hd hk hp]
  have hshare := I.sound.shape.sharable_pte hd' hk (fun _ j hj => by
    rw [hent, I.table_ent H hd hk hp]
    exact hro hp j hj)
  refine wp_mono (I.sound.copyPt_spec (I.sound.shape.held_node (I.born.nodes htn))
    (fun j hj => ?_) hshare) (fun t s₂ ⟨hfree, hm₂, h₂, k₂⟩ => ?_)
    (fun _ _ he => he.imp (fun h => h.1) fun h => h.1)
  · rw [hsrc, I.agrees _ (I.born.nodes htn) htd j hj, I.table_ent H hd hk hp]
  obtain ⟨hn, ht⟩ := I.sound.shape.unnamed_of_free hfree
  have htd' : t ≠ d' := by rintro rfl; exact ht I.node
  have hup : ∀ j, j < 1024 → upTo κ k (S'.pte κ d k) 1024 j = S'.pte κ d k j := fun j hj => if_pos hj
  -- of the copy only its entries matter from here on
  generalize upTo κ k (S'.pte κ d k) 1024 = src at h₂ hup
  have hal : Aligned t := h₂.held_aligned (h₂.shape.held_node (x := t) (by
    rw [Space.withTable_nodes]
    exact Finset.mem_insert_self _ _))
  have hfe : frame (t ||| lowBits (S.ent d k)) = t := frame_mk hal (low_lowBits _)
  have hpe : priv (t ||| lowBits (S.ent d k)) = true := by
    rw [priv_mk hal, priv_lowBits, hp]
  have h₃ := Sound.install (e := t ||| lowBits (S.ent d k)) I.sound.shape h₂ hfree I.dir hk
    (fun j hj hpj => by
      rw [hup j hj] at hpj ⊢
      exact hshare.frame_ne hn hj hpj) hfe hpe
    (by rw [writable_mk hal, writable_lowBits, hw]) (by rw [user_mk hal, user_lowBits, E.user hp])
    (by rw [global_mk hal, global_lowBits]; exact E.mixed hp)
  have h₄ := h₃.store (p := d') (h₃.shape.held_node (by
    rw [Space.install_nodes_eq]
    exact Finset.mem_insert_of_mem I.node)) (I.sound.shape.kernelNodes _ I.node)
    (Function.update (s₂.mem d') k (t ||| lowBits (S.ent d k)))
  refine ⟨S'.install d' k t src (t ||| lowBits (S.ent d k)), I.advance H hk h₄ ((k₂.weaken fun q hq => hq.1).store (fun h => h.2 rfl) _)
    (e := t ||| lowBits (S.ent d k)) ?_ (fun i hi => ?_) rfl (fun x hx => ?_) ?_ rfl
    (fun x hx hxd => ?_) Space.install_ent_self
    (fun i hi => Space.install_ent I.node ht I.node fun h => hi h.2) (fun x hx hx' i hi => ?_)
    (fun q hq => ?_) (fun hn => by rw [hp] at hn; exact absurd hn (by simp))
    (fun _ => ⟨hpe, fun j hj => ?_⟩)⟩
  · show Function.update s₂.mem d' _ d' k = _
    rw [Function.update_self, Function.update_self]
  · show Function.update s₂.mem d' _ d' i = _
    rw [Function.update_self, Function.update_of_ne hi, k₂.mem d' (I.sound.shape.held_node I.node)]
  · rw [Space.install_nodes_eq]
    exact Finset.mem_insert_of_mem hx
  · funext q
    have hr' : S'.ref d' k = none := I.rest_ref
    rw [Space.install_extra hfe hpe ht I.node, hr', if_neg (by simp), Nat.add_zero]
  · funext i
    exact Space.install_ent I.node ht hx fun h => hxd h.1
  · have hxt : x = t := by
      rw [Space.install_nodes_eq] at hx
      exact (Finset.mem_insert.mp hx).resolve_right hx'
    show Function.update s₂.mem d' _ x i = _
    rw [hxt, Function.update_of_ne htd', hm₂ i hi, Space.install_ent_new htd', hup i hi]
  · exact Space.held_of_count_le hq (fun x => Space.count_le_install ht I.node hk hfe x) rfl
  · rw [hfe, Space.install_ent_new htd', hup j hj, hsrc]

theorem step (I : Copying κ b a s S d d' k s' S') (H : Shape κ b S) (hA : Agrees s S)
    (hd : d ∈ S.dirs) (hro : ∀ k, k < 1024 → SlotReadOnly S d k) (hk : k < 1024) :
    wp (do
        let pde ← K.load d k
        if pde &&& Flag.P = 0#32 then
          return
        else if pde &&& Flag.NG = 0#32 then
          K.store d' k pde
        else if pde &&& Flag.RW = 0#32 then do
          K.store d' k pde
          incref (pde &&& Flag.MASK)
        else do
          let newPt ← copyPt (pde &&& Flag.MASK)
          K.store d' k (newPt ||| (pde &&& 0xfff#32)))
      (fun _ s'' => ∃ S'', Copying κ b a s S d d' (k + 1) s'' S'')
      (fun e _ => e = .noFrames ∨ e = .refOverflow) s' := by
  have hload := I.load H hA hd hk
  simp only [wp_bind, wp_load, wp_ite, wp_pure, wp_store, hload]
  by_cases hP : present (S.ent d k) = true
  · rw [if_neg (by rw [and_P, hP]; simp)]
    by_cases hp : priv (S.ent d k) = true
    · rw [if_neg (by rw [and_NG, nonGlobal_of_priv hp]; simp)]
      by_cases hw : writable (S.ent d k) = true
      · rw [if_neg (by rw [and_RW, hw]; simp)]
        exact I.copyTable H hd (hro k hk) hk hp hw
      · have hw' : writable (S.ent d k) = false := by simpa using hw
        rw [if_pos (and_RW.mpr hw')]
        exact wp_mono (I.shareTable H hd hk hp hw') (fun _ _ h => h) (fun _ _ he => Or.inr he)
    · have hnp : priv (S.ent d k) = false := by simpa using hp
      have hng : nonGlobal (S.ent d k) = false := by
        unfold priv at hnp
        rw [hP, Bool.true_and] at hnp
        exact hnp
      rw [if_pos (and_NG.mpr hng)]
      exact ⟨S', I.shareKernel H hd hk hnp⟩
  · have hP' : present (S.ent d k) = false := by simpa using hP
    rw [if_pos (and_P.mpr hP')]
    exact ⟨S', I.skip hd hk hP'⟩

end Copying

/-- The new directory shows what `d` shows. -/
theorem Sound.copyPd_spec (h : Sound κ b s S n a) (hA : Agrees s S) (hd : d ∈ S.dirs)
    (hro : ∀ k, k < 1024 → SlotReadOnly S d k) :
    wp (copyPd d) (fun d' s' => ∃ S', Sound κ b s' S' 0 a ∧ Agrees s' S' ∧ Born κ s S d' s' S' ∧
        ∀ k, k < 1024 → ∀ l, l < 1024 → S'.pte κ d' k l = S.pte κ d k l)
      (fun e _ => e = .noFrames ∨ e = .refOverflow) s := by
  unfold copyPd
  simp only [wp_bind]
  refine wp_mono h.allocFrame_spec (fun d' s₁ hpost => ?_)
    (fun _ _ he => Or.inl he.1)
  obtain ⟨hfree, hzero, h₁, k₁⟩ := hpost
  obtain ⟨h₂, B⟩ := (h.weaken (Nat.sub_le n 2)).newDir hfree h₁ k₁
  have hent : ((S.give d').addDir κ d').ent d' = κ.pde := Space.addDir_ent_self
  have I₀ : Copying κ b a s S d d' 0 s₁ ((S.give d').addDir κ d') := {
    sound := h₂.weaken (Nat.zero_le _)
    born := B
    held := fun q hq => by
      refine Space.held_of_count_le hq (fun x => ?_) rfl
      have P := InHand.of_alloc h.shape hfree
      rw [Space.count_addDir P.node (by rw [P.extra]; exact Nat.one_pos), Space.count_give]
      exact Nat.le_add_right _ _
    agrees := fun x hx hxd i hi => by
      rw [Space.addDir_nodes] at hx
      have hxn : x ∈ S.nodes := (Finset.mem_insert.mp hx).resolve_left hxd
      rw [B.ent x hxn, k₁.mem x (h.shape.held_node hxn)]
      exact hA x hxn i hi
    filled := fun i _ => by
      rw [hzero, if_neg (Nat.not_lt_zero i)]
    rest := fun i _ => by rw [hent]
    kernel := fun i hi => absurd hi (Nat.not_lt_zero i)
    copied := fun i hi => absurd hi (Nat.not_lt_zero i) }
  refine wp_mono (wp_forI (n := PAGES_PER_TABLE)
    (I := fun k s' => ∃ S', Copying κ b a s S d d' k s' S')
    (fun k (hk : k < 1024) s' hinv => hinv.elim fun S' I => I.step h.shape hA hd hro hk) ⟨_, I₀⟩)
    (fun _ s' hpost => ?_) (fun _ _ he => he)
  obtain ⟨S', I⟩ := hpost
  refine ⟨S', I.sound, fun x hx i hi => ?_, I.born, fun k hk l hl => ?_⟩
  · by_cases hxd : x = d'
    · rw [hxd, I.filled i hi, if_pos (show i < PAGES_PER_TABLE from hi)]
    · exact I.agrees x hx hxd i hi
  · by_cases hp : priv (S.ent d k) = true
    · obtain ⟨hp', hc⟩ := I.copied k hk hp
      rw [Space.pte_of_priv hp', Space.pte_of_priv hp, hc l hl]
    · have hnp : priv (S.ent d k) = false := by simpa using hp
      have he := I.kernel k hk hnp
      rw [Space.pte_of_not_priv (by rw [he]; exact hnp), Space.pte_of_not_priv hnp]

/-! ## `Process::clone` -/

/-- The process with directory `d` has a child with directory `d'`: it finds the parent's pages,
and nobody's data has changed. -/
structure Forked (κ : KernelMap) (s : Machine) (S : Space) (d d' : Word) (s' : Machine)
    (S' : Space) : Prop where
  fresh : S.own κ d' = .none
  dirs : S'.dirs = insert d' S.dirs
  extra : S'.extra = S.extra
  dying : S'.dying = S.dying
  regs : SameMap s s'
  mono : s.avail.toNat ≤ s'.avail.toNat
  data : ∀ x ∈ S.dirs, ∀ k, k < 1024 → ∀ l, l < 1024 → S'.data κ s' x k l = S.data κ s x k l
  child : ∀ k, k < 1024 → ∀ l, l < 1024 → S'.data κ s' d' k l = S.data κ s d k l
  present : ∀ x ∈ S.dirs, ∀ k, k < 1024 → ∀ l, l < 1024 →
    priv (S'.pte κ x k l) = priv (S.pte κ x k l)
  childPresent : ∀ k, k < 1024 → ∀ l, l < 1024 → priv (S'.pte κ d' k l) = priv (S.pte κ d k l)

theorem Sound.clone_spec (h : Sound κ b s S n a) (hA : Agrees s S) (hd : d ∈ S.dirs)
    (hcr3 : s.cr3 = d) :
    wp (clone d) (fun d' s' => ∃ S', Sound κ b s' S' 0 a ∧ Agrees s' S' ∧ Forked κ s S d d' s' S')
      (fun e _ => e = .noFrames ∨ e = .refOverflow) s := by
  unfold clone
  simp only [wp_bind, wp_getCR3, wp_assert]
  rw [if_pos hcr3.symm]
  refine wp_mono (h.writeProtect_spec hA hd) (fun _ s₁ hpost => ?_)
    (fun _ _ he => he.elim)
  obtain ⟨S₁, h₁, hA₁, P, hro⟩ := hpost
  have hd₁ : d ∈ S₁.dirs := by rw [P.dirs]; exact hd
  refine wp_mono (h₁.copyPd_spec hA₁ hd₁ hro) (fun d' s' hpost => ?_)
    (fun _ _ he => he)
  obtain ⟨S', h', hA', B, hpte⟩ := hpost
  have hmem : ∀ k, k < 1024 → ∀ l, l < 1024 → priv (S₁.pte κ d k l) = true →
      s'.mem (frame (S₁.pte κ d k l)) = s₁.mem (frame (S₁.pte κ d k l)) := fun k hk l hl hp =>
    B.kept.mem _ (h₁.shape.held_pte hd₁ hk hl hp)
  refine ⟨S', h', hA', {
    fresh := ?_
    dirs := by rw [B.dirs, P.dirs]
    extra := B.extra.trans P.extra
    dying := B.dying.trans P.dying
    regs := P.regs.trans (SameMap.of_regs B.kept.regs)
    mono := (Nat.le_of_eq (by rw [P.avail])).trans B.kept.mono
    data := fun x hx k hk l hl => ?_
    child := fun k hk l hl => ?_
    present := fun x hx k hk l hl => ?_
    childPresent := fun k hk l hl => ?_ }⟩
  · have hc : ∀ q, S₁.count q = S.count q := fun q => P.count_eq q
    rw [← Space.own_congr (κ := κ) hc P.dying]
    exact B.fresh
  · have hx₁ : x ∈ S₁.dirs := by rw [P.dirs]; exact hx
    rw [B.data h₁.shape hx₁ hk hl, P.data h.shape hx hk hl]
  · rw [← P.data h.shape hd hk hl]
    exact Space.data_of_pte (hpte k hk l hl) (hmem k hk l hl)
  · have hx₁ : x ∈ S₁.dirs := by rw [P.dirs]; exact hx
    rw [B.pte h₁.shape hx₁ hk]
    exact P.priv_pte x k l
  · rw [hpte k hk l hl]
    exact P.priv_pte d k l

end OsKernel.Vmm
