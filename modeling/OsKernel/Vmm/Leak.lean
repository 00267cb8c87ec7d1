import OsKernel.Vmm.Safety

/-!
# Frames come back

The other half of the count: a reference that no entry accounts for is a frame lost. `extra`
of a space holds these references, and every operation but one gives back what it took. The
exception is the page-fault handler, which takes a frame before `map_copy` looks at the page:
if the page is writable already the process is killed, and the frame is nobody's. `Accounted`
leaves these faults out, and those whose error code denies a page that is there.

Both are conditions on a fault and the state before it, and are decided by looking at the
tables. So the theorem is about runs with any number of processes, faults and forks in any
order, and says of each state of them that the frames handed out since the kernel started have
no more references than places that name them. When no process is left they are all on the
free list, but for tables of counters that frames of the kernel keep in use.

That the first kind of fault occurs is shown at the end (`frame_lost`): a process writes to
the local APIC. The page is there, for the kernel, and writable, and the processor reports a
protection violation.
-/

set_option autoImplicit false

namespace OsKernel.Vmm

open Lib Lib.Prog K PhysMem

/-- The fault is not one that makes the handler lose a reference. -/
def Accounted (σ : System) : Op → Prop
  | .fault pd va error_code => 0x80000000#32 ≤ va →
    (error_code &&& 0x3#32 = 0x3#32 → present (σ.machine.walk pd va) = true →
      writable (σ.machine.walk pd va) = false) ∧
    (error_code &&& 0x1#32 = 0#32 → priv (σ.machine.walk pd va) = false)
  | _ => True

instance (σ : System) : (op : Op) → Decidable (Accounted σ op)
  | .fault _ _ _ => inferInstanceAs (Decidable (_ → _ ∧ _))
  | .create | .fork _ | .exec _ _ | .exit _ _ | .store _ _ _ => isTrue trivial

namespace Good

variable {κ : KernelMap} {b : Prop} {a : Word → Word → Prop} {σ σ' : System} {S : Space}

/-- No operation but such a fault leaves a reference behind. -/
theorem extra_step (G : Good κ False a σ S) {op : Op} (hok : Accounted σ op)
    (h : System.step σ op = some σ') : ∃ S', Good κ False a σ' S' ∧ S'.extra = S.extra := by
  obtain ⟨S', G', F⟩ := G.step (fun hf => hf.elim) h
  refine ⟨S', G', ?_⟩
  cases op with
  | create =>
    obtain ⟨d', B, -⟩ := F
    exact B.extra
  | fork d =>
    obtain ⟨d', F⟩ := F
    exact F.extra
  | fault d va error_code =>
    have hd : d ∈ S.dirs := by
      rw [G.dirs]
      exact System.live_of_fault h
    unfold Accounted at hok
    dsimp only at hok
    rw [G.sound.walk G.agrees hd] at hok
    have hge : ¬ Refused va error_code → 0x80000000#32 ≤ va := fun hR => by
      rw [← BitVec.not_lt]
      exact fun hlt => hR (Or.inr (Or.inr (Or.inl hlt)))
    obtain ⟨hR, -, M⟩ | ⟨-, -, rfl⟩ | ⟨hR, h3, hp, hw, -⟩ := F
    · refine M.extra ?_
      by_cases h3 : error_code &&& 0x3#32 = 0x3#32
      · exact Or.inl h3
      · obtain h1 | h1 := and_one_cases error_code
        · exact Or.inr ((hok (hge hR)).2 h1)
        · exact absurd (Or.inr (Or.inr (Or.inr ⟨h3, h1⟩))) hR
    · rfl
    · have := (hok (hge hR)).1 h3 hp
      rw [hw] at this
      exact absurd this (by simp)
  | exec d discard => exact F.extra
  | exit d cr3 => exact F.extra
  | store d va f => exact congrArg Space.extra F.1

/-- Nothing but the kernel holds a reference outside the entries. -/
def Tidy (κ : KernelMap) (S : Space) : Prop := S.extra = (Space.idle κ).extra

theorem tables_eq (G : Good κ b a σ S) (hS : Tidy κ S) : σ.tables = S.tables := by
  refine Finset.Subset.antisymm G.tables_subset fun t ht => ?_
  have H := G.sound.shape
  have htn : t ∈ S.nodes := Space.mem_nodes.mpr (Or.inr ht)
  -- a table is named, and a table cannot name it
  have h0 : S.extra t = 0 := by
    rw [hS]
    exact if_neg fun hc => H.kernelNodes t htn (Finset.mem_union_right _ hc)
  have hpos : 0 < S.names t := by
    have := H.held t ht
    unfold Space.count at this
    omega
  obtain hd | ⟨x, hx, i, hi, hp, hf⟩ := Space.names_pos_iff.mp hpos
  · exact absurd ht (H.disj t hd)
  obtain hxd | hxt := Space.mem_nodes.mp hx
  · rw [← G.agrees x hx i hi] at hp hf
    rw [G.dirs] at hxd
    exact System.mem_tables.mpr ⟨x, hxd, i, hi, hp, hf⟩
  · exact absurd (hf ▸ htn) ((H.tableEntry x hxt i hi).page hp)

theorem names_eq (G : Good κ b a σ S) (hS : Tidy κ S) (p : Word) : σ.names p = S.names p := by
  have hnodes : σ.live ∪ σ.tables = S.nodes := by
    rw [G.tables_eq hS, ← G.dirs]
    rfl
  unfold System.names Space.names
  rw [hnodes, ← G.dirs]
  refine RefGraph.names_congr (fun x hx i hi => ?_) p
  unfold System.slot Space.ref
  rw [G.agrees x hx i hi]

end Good

namespace Booted

variable {c : Config} {κ : KernelMap} {a : Word → Word → Prop} {n : Nat} {s₀ : Machine} {σ : System}
  {S : Space}

/-- What a frame is that was handed out after the kernel had started. -/
theorem later (B : Booted c s₀ κ a n) {p : Word} (hp : ¬ InPool s₀ p) :
    p ∉ κ.frames ∧ ∀ x, ¬ a x p :=
  ⟨fun h => hp (B.sound.acc.inPool (B.sound.shape.kernel_held h)),
    fun _ hx => hp (B.sound.acc.anchored_none hx).1⟩

/-- The frames of the kernel are not handed out a second time. -/
theorem alloc_later (B : Booted c s₀ κ a n) (G : Good κ False a σ S) {p : Word} {s' : Machine}
    (h : allocFrame σ.machine = .ok p s') : ¬ InPool s₀ p := by
  obtain ⟨hfree, -, hacc, -⟩ := wp_ok G.sound.acc.allocFrame_spec h
  intro hp
  obtain hk | ⟨x, hx⟩ := B.pool p hp
  · exact G.sound.shape.not_kernel_of_free hfree hk
  · have := (hacc.anchored_none hx).2
    rw [Function.update_self] at this
    exact absurd this (by simp)

theorem refCount_le (B : Booted c s₀ κ a n) (G : Good κ False a σ S) (hS : Good.Tidy κ S) {p : Word}
    (hp : InPool σ.machine p) (hp₀ : ¬ InPool s₀ p) : refCount σ.machine p ≤ σ.names p := by
  have hx : S.extra p = 0 := by
    rw [hS]
    exact if_neg fun hc => (B.later hp₀).1 (Finset.mem_union_right _ hc)
  have hc : S.count p = S.names p := by
    unfold Space.count
    omega
  rw [G.names_eq hS, ← hc]
  by_cases h0 : S.count p = 0
  · have hnone : S.own κ p = .none := Space.own_eq_none_iff.mpr
      ⟨fun hr => (B.later hp₀).1 (Finset.mem_union_left _ hr), by simp [G.dying], h0⟩
    rw [G.sound.acc.refCount_pool hp, hnone, h0]
    rfl
  · exact le_of_eq (G.refCount_eq (Nat.pos_of_ne_zero h0))

/-- When the last process is gone, nothing is held but by the kernel. -/
theorem all_free (B : Booted c s₀ κ a n) (G : Good κ False a σ S) (hS : Good.Tidy κ S)
    (hlive : σ.live = ∅) {p : Word} (hp : InPool σ.machine p) (hp₀ : ¬ InPool s₀ p) :
    IsFree σ.machine p ∧ refCount σ.machine p = 0 := by
  have hnames : ∀ q, S.names q = 0 := by
    intro q
    by_contra hne
    have htab : σ.tables = ∅ := by
      unfold System.tables
      rw [hlive, Finset.biUnion_empty]
    rw [← G.names_eq hS, System.names, htab, hlive] at hne
    obtain h | ⟨x, hx, -⟩ := RefGraph.names_pos_iff.mp (Nat.pos_of_ne_zero hne)
    · exact absurd h (Finset.notMem_empty q)
    · exact absurd hx (by simp)
  have hcount : ∀ q, S.count q = if q ∈ κ.counted then 1 else 0 := by
    intro q
    unfold Space.count
    rw [hnames, Nat.zero_add, hS]
    rfl
  refine G.sound.acc.isFree_of_none hp (Space.own_eq_none_iff.mpr
    ⟨fun hr => (B.later hp₀).1 (Finset.mem_union_left _ hr), by simp [G.dying], ?_⟩)
    (fun x hx => B.pins x ?_) (B.later hp₀).2
  · rw [hcount, if_neg fun hc => (B.later hp₀).1 (Finset.mem_union_right _ hc)]
  · by_contra hxc
    have hne : S.own κ x ≠ .none := by
      intro h0
      rw [h0] at hx
      exact absurd hx (by simp)
    obtain hr | hd | hc := Space.held_iff.mp hne
    · unfold Space.own at hx
      rw [if_pos hr] at hx
      exact absurd hx (by simp)
    · rw [G.dying] at hd
      exact absurd hd (Finset.notMem_empty x)
    · rw [hcount, if_neg hxc] at hc
      exact Nat.lt_irrefl 0 hc

end Booted

/-- As long as no fault makes the handler lose a reference: the frames handed out since the kernel
started have no more references than places that name them, and when no process is left they are
all free. -/
theorem frames_come_back {c : Config} {σ₀ σ : System} (h : Started c σ₀) {ops : List Op}
    (hok : RunOk System.step Accounted σ₀ ops) (hr : runs System.step σ₀ ops = some σ) :
    (∀ p s', allocFrame σ.machine = .ok p s' → ¬ InPool σ₀.machine p) ∧
    (∀ p, InPool σ.machine p → ¬ InPool σ₀.machine p → refCount σ.machine p ≤ σ.names p) ∧
    (σ.live = ∅ → ∀ p, InPool σ.machine p → ¬ InPool σ₀.machine p →
      IsFree σ.machine p ∧ refCount σ.machine p = 0) := by
  obtain ⟨κ, a, n, B, G₀⟩ := h.good
  obtain ⟨S, G, hS⟩ := runs_inv (fun σ => ∃ S, Good κ False a σ S ∧ Good.Tidy κ S)
    (fun σ op σ' ⟨S, G, hS⟩ hop hs => by
      obtain ⟨S', G', hx⟩ := G.extra_step hop hs
      exact ⟨S', G', hx.trans hS⟩) ⟨_, G₀ False, rfl⟩ hok hr
  exact ⟨fun p s' => B.alloc_later G, fun p => B.refCount_le G hS, fun hl p => B.all_free G hS hl⟩

/-! ## A frame that comes back, and one that does not -/

namespace Good

variable {κ : KernelMap} {b : Prop} {a : Word → Word → Prop} {σ σ' : System} {S : Space} {n : Nat}
  {d : Word}

/-- A write fault on a page that is writable in the tables ends the process, with a frame taken that
no entry names. -/
theorem killed (G : Good κ b a σ S) {va error_code : Word}
    (hva : 0x80000000#32 ≤ va) (h3 : error_code &&& 0x3#32 = 0x3#32)
    (hP : present (S.pte κ d (pdi va) (pti va)) = true)
    (hW : writable (S.pte κ d (pdi va) (pti va)) = true)
    (h : System.step σ (.fault d va error_code) = some σ') : ∃ S' p, Good κ b a σ' S' ∧
      Prepared κ { σ.machine with cr3 := d, tlb := [] } S d (pdi va) p σ'.machine S' := by
  have h1 : error_code &&& 0x1#32 ≠ 0#32 := by
    have hm : (0x1#32 : Word) = 0x3#32 &&& 0x1#32 := by decide
    rw [hm, ← BitVec.and_assoc, h3]
    decide
  have hR : ¬ Refused va error_code := by
    rintro (h0 | h5 | hlt | h3')
    · rw [h0] at hva
      exact absurd hva (by decide)
    · have hm : (0x3#32 : Word) = 0x7#32 &&& 0x3#32 := by decide
      rw [hm, ← BitVec.and_assoc, h5] at h3
      exact absurd h3 (by decide)
    · exact absurd hva (BitVec.not_le.mpr hlt)
    · exact h3'.1 h3
  have hok : b → Truthful σ (.fault d va error_code) := fun _ _ h0 => absurd h0 h1
  obtain ⟨S', G', F⟩ := G.step hok h
  obtain ⟨-, hro, -⟩ | ⟨hR', -⟩ | ⟨-, -, -, -, p, P⟩ := F
  · have := hro h3 hP
    rw [hW] at this
    exact absurd this (by simp)
  · exact absurd hR' hR
  · exact ⟨S', p, G', P⟩

end Good

/-- A page, a child, the next store of the parent, and both processes go: first the child, then the
parent, whose second page is its own. -/
theorem frames_come_back_small : ∃ σ₀ σ, Started .small σ₀ ∧
    runs System.step σ₀ [.create, .fault 0x605000#32 0x80000000#32 0x6#32, .fork 0x605000#32,
      .fault 0x605000#32 0x80000000#32 0x7#32, .exit 0x608000#32 0x600000#32,
      .exit 0x605000#32 0x600000#32] = some σ ∧
    σ.live = ∅ ∧ ∀ p ∈ [0x605000#32, 0x606000#32, 0x607000#32, 0x608000#32, 0x609000#32],
      IsFree σ.machine p ∧ refCount σ.machine p = 0 := by
  obtain ⟨σ₀, σ, h, hr, hok, ht⟩ := small_runs Accounted [.create,
    .fault 0x605000#32 0x80000000#32 0x6#32, .fork 0x605000#32,
    .fault 0x605000#32 0x80000000#32 0x7#32, .exit 0x608000#32 0x600000#32,
    .exit 0x605000#32 0x600000#32] (fun σ₀ σ => decide (σ.live = ∅) &&
      [0x605000#32, 0x606000#32, 0x607000#32, 0x608000#32, 0x609000#32].all fun p =>
        decide (InPool σ.machine p ∧ ¬InPool σ₀.machine p)) (by decide +kernel)
  obtain ⟨hempty, hpool⟩ := Bool.and_eq_true_iff.mp ht
  have hempty := of_decide_eq_true hempty
  have hback := frames_come_back h hok hr
  refine ⟨σ₀, σ, h, hr, hempty, fun p hp => ?_⟩
  obtain ⟨hin, hout⟩ := of_decide_eq_true (List.all_eq_true.mp hpool p hp)
  exact hback.2.2 hempty p hin hout

/-- A process that writes to the local APIC dies, and when it has been destroyed a frame is
missing. -/
theorem frame_lost : ∃ σ₀ σ d cr3 p, Started .small σ₀ ∧
    runs System.step σ₀ [.create, .fault d 0xFEE00000#32 0x7#32, .exit d cr3] = some σ ∧
    σ.live = ∅ ∧ InPool σ.machine p ∧ ¬ InPool σ₀.machine p ∧ ¬ IsFree σ.machine p ∧
    0 < refCount σ.machine p := by
  obtain ⟨σ₀, κ, a, h, hlive, B⟩ := small_starts
  obtain ⟨σ₁, S₁, d, hs₁, hl₁, G₁, h₁, -, -, hpte⟩ := (B.good hlive True).can_create B.sound (by omega)
  have hd₁ : d ∈ σ₁.live := by
    rw [hl₁]
    exact Finset.mem_insert_self d _
  -- the page is the APIC's
  have hpage : κ.pte (pdi 0xFEE00000#32) (pti 0xFEE00000#32) = _ :=
    B.page _ _ (pdi_lt _) (pti_lt _) (Or.inr (Or.inl (pageAt_of_aligned (by unfold Aligned; decide))))
  have hke : KernelEntry (S₁.pte κ d (pdi 0xFEE00000#32) (pti 0xFEE00000#32)) := by
    rw [hpte, hpage]
    exact kernelEntry_mk (aligned_pageAt _ _)
  obtain ⟨σ₂, hs₂, hl₂⟩ := G₁.can_fault h₁ (by omega) hd₁ 0xFEE00000#32 0x7#32
    (fun _ _ h0 => absurd h0 (by decide)) fun j _ => by
      rw [hpte]
      exact κ.pte_priv _ j
  obtain ⟨S₂, p, G₂, P⟩ := G₁.killed (by decide) (by decide) hke.present hke.writable hs₂
  obtain ⟨σ₃, S₃, hs₃, hl₃, G₃, D⟩ := G₂.can_exit (d := d) (by rw [hl₂]; exact hd₁)
  have hcount : 0 < S₃.count p := by
    have := P.inHand.extra
    unfold Space.count
    rw [D.extra]
    omega
  have hheld : Held (S₃.own κ) p := Space.held_iff.mpr (Or.inr (Or.inr hcount))
  refine ⟨σ₀, σ₃, d, κ.kpd, p, h, runs_cons.mpr ⟨σ₁, hs₁, runs_cons.mpr ⟨σ₂, hs₂,
    runs_cons.mpr ⟨σ₃, hs₃, rfl⟩⟩⟩, ?_, G₃.sound.acc.inPool hheld, fun hp₀ => ?_,
    G₃.sound.acc.not_isFree hheld, by rw [G₃.refCount_eq hcount]; exact hcount⟩
  · rw [hl₃, hl₂, hl₁, hlive, insert_empty_eq, Finset.erase_singleton]
  · obtain hk | ⟨x, hx⟩ := B.pool p hp₀
    · exact G₁.sound.shape.not_kernel_of_free P.fresh hk
    · exact hheld (G₃.sound.acc.anchored_none hx).2

end OsKernel.Vmm
