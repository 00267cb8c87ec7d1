import OsKernel.Vmm.System

/-!
# No use after free, no writable sharing

The statements here are about memory: which frames the entries of live directories and of
their tables name, and what the allocator holds about those frames. The space of the invariant
does not occur in them. Error codes are not restricted: the reference counts are safe even if
the handler is told nonsense.

`System.names` counts the places that name a frame by looking through the words of the live
directories and tables, each table once however many directories share it. `frames_safe`
compares this number with what `refCount` reads from the two levels of counters. It is the
reason for `Space.count` and its proof is short; the work is in the operations.

A count may be higher than the number of places, since a frame can be lost; it may not be
lower, and for an entry that may be written it has to be one. How far it can be higher is in
`Vmm/Leak.lean`.

The runs at the end are evaluated. The words that `global_init` stores one by one into a table
go in at once there (`globalInitFill`), which is proved to be the same, so that the start of a
small machine and a run of some operations can be evaluated.
-/

set_option autoImplicit false

namespace OsKernel.Vmm

open Lib Lib.Prog K PhysMem

namespace System

/-- The frame that entry `i` of the frame `x` refers to, if it is private. -/
def slot (σ : System) (x : Word) (i : Nat) : Option Word := refOf (σ.machine.mem x i)

/-- The live page tables: those that private entries of live directories name. -/
def tables (σ : System) : Finset Word :=
  σ.live.biUnion fun d =>
    ((Finset.range 1024).filter fun i => priv (σ.machine.mem d i) = true).image fun i =>
      frame (σ.machine.mem d i)

/-- The number of places that name `p`: private entries of live directories and of their tables,
each table taken once, and `p` itself if it is a live directory. -/
def names (σ : System) (p : Word) : Nat :=
  RefGraph.names 1024 σ.live (σ.live ∪ σ.tables) σ.slot p

theorem mem_tables {σ : System} {t : Word} : t ∈ σ.tables ↔
    ∃ d ∈ σ.live, ∃ i, i < 1024 ∧ priv (σ.machine.mem d i) = true ∧ frame (σ.machine.mem d i) = t := by
  unfold tables
  simp only [Finset.mem_biUnion, Finset.mem_image, Finset.mem_filter, Finset.mem_range, and_assoc]

end System

namespace Good

variable {κ : KernelMap} {b : Prop} {a : Word → Word → Prop} {σ : System} {S : Space}

theorem tables_subset (G : Good κ b a σ S) : σ.tables ⊆ S.tables := by
  intro t ht
  obtain ⟨d, hd, i, hi, hp, rfl⟩ := System.mem_tables.mp ht
  rw [← G.dirs] at hd
  rw [G.agrees d (Space.mem_nodes.mpr (Or.inl hd)) i hi] at hp ⊢
  exact (G.sound.shape.dirEntry d hd i hi).table hp

theorem names_le (G : Good κ b a σ S) (p : Word) : σ.names p ≤ S.names p := by
  have hnodes : σ.live ∪ σ.tables ⊆ S.nodes := by
    unfold Space.nodes
    rw [G.dirs]
    exact Finset.union_subset_union_right G.tables_subset
  have hslot : ∀ x ∈ S.nodes, ∀ i, i < 1024 → σ.slot x i = S.ref x i := by
    intro x hx i hi
    unfold System.slot Space.ref
    rw [G.agrees x hx i hi]
  unfold System.names Space.names
  rw [← RefGraph.names_congr hslot, ← G.dirs]
  rw [← G.dirs] at hnodes
  exact RefGraph.names_mono hnodes p

/-- The reference count of a frame that somebody refers to is the number of references. -/
theorem refCount_eq (G : Good κ b a σ S) {p : Word} (hp : 0 < S.count p) :
    refCount σ.machine p = S.count p := by
  obtain ⟨k, hk⟩ : ∃ k, S.count p = k + 1 := ⟨S.count p - 1, by omega⟩
  rw [G.sound.acc.refCount_eq (Space.held_iff.mpr (Or.inr (Or.inr hp))),
    G.sound.shape.own_counted hk, hk]
  rfl

theorem names_le_refCount (G : Good κ b a σ S) (p : Word) : σ.names p ≤ refCount σ.machine p := by
  have hle := G.names_le p
  by_cases h0 : σ.names p = 0
  · omega
  · have hc : S.names p ≤ S.count p := Nat.le_add_right _ _
    rw [G.refCount_eq (by omega)]
    omega

theorem not_free (G : Good κ b a σ S) {p : Word} (hp : 0 < σ.names p) : ¬ IsFree σ.machine p := by
  have hle := G.names_le p
  have hc : S.names p ≤ S.count p := Nat.le_add_right _ _
  exact G.sound.acc.not_isFree (Space.held_iff.mpr (Or.inr (Or.inr (by omega))))

theorem not_handed_out (G : Good κ b a σ S) {p q : Word} {s' : Machine} (hp : 0 < σ.names p)
    (h : allocFrame σ.machine = .ok q s') : q ≠ p := by
  have hle := G.names_le p
  have hc : S.names p ≤ S.count p := Nat.le_add_right _ _
  obtain ⟨hfree, -⟩ := wp_ok G.sound.allocFrame_spec h
  rintro rfl
  exact Space.held_iff.mpr (Or.inr (Or.inr (by omega))) hfree

/-- Nobody else names a table under a writable entry. -/
theorem pde_unique (G : Good κ b a σ S) {d d' : Word} {i i' : Nat} (hd : d ∈ σ.live)
    (hi : i < 1024) (hp : priv (σ.machine.mem d i) = true) (hw : writable (σ.machine.mem d i) = true)
    (hd' : d' ∈ σ.live) (hi' : i' < 1024) (hp' : priv (σ.machine.mem d' i') = true)
    (hf : frame (σ.machine.mem d' i') = frame (σ.machine.mem d i)) : d' = d ∧ i' = i := by
  rw [← G.dirs] at hd hd'
  have hdn : d ∈ S.nodes := Space.mem_nodes.mpr (Or.inl hd)
  have hdn' : d' ∈ S.nodes := Space.mem_nodes.mpr (Or.inl hd')
  rw [G.agrees d hdn i hi] at hp hw hf
  rw [G.agrees d' hdn' i' hi'] at hp' hf
  exact Space.only hdn hi hp ((G.sound.shape.dirEntry d hd i hi).single hp hw) hdn' hi' hp' hf

/-- Nobody else names a page under a writable entry. -/
theorem pte_unique (G : Good κ b a σ S) {t t' : Word} {j j' : Nat} (ht : t ∈ σ.tables)
    (hj : j < 1024) (hp : priv (σ.machine.mem t j) = true) (hw : writable (σ.machine.mem t j) = true)
    (ht' : t' ∈ σ.tables) (hj' : j' < 1024) (hp' : priv (σ.machine.mem t' j') = true)
    (hf : frame (σ.machine.mem t' j') = frame (σ.machine.mem t j)) : t' = t ∧ j' = j := by
  have htab := G.tables_subset ht
  have htn : t ∈ S.nodes := Space.mem_nodes.mpr (Or.inr htab)
  have htn' : t' ∈ S.nodes := Space.mem_nodes.mpr (Or.inr (G.tables_subset ht'))
  rw [G.agrees t htn j hj] at hp hw hf
  rw [G.agrees t' htn' j' hj'] at hp' hf
  exact Space.only htn hj hp ((G.sound.shape.tableEntry t htab j hj).single hp hw) htn' hj' hp' hf

end Good

/-! ## Every reachable state -/

/-- However the operations and their error codes follow each other, the invariant holds. -/
theorem Started.reaches {c : Config} {σ₀ σ : System} (h : Started c σ₀) {ops : List Op}
    (hr : runs System.step σ₀ ops = some σ) : ∃ κ a S, Good κ False a σ S := by
  obtain ⟨κ, a, n, -, G₀⟩ := h.good
  have hinv := runs_inv (fun σ => ∃ S, Good κ False a σ S)
    (fun σ op σ' ⟨S, G⟩ _ hs => by
      obtain ⟨S', G', -⟩ := G.step (fun hf => hf.elim) hs
      exact ⟨S', G'⟩) ⟨_, G₀ False⟩ (RunOk.of_forall (fun _ _ => trivial) ops σ₀) hr
  obtain ⟨S, G⟩ := hinv
  exact ⟨κ, a, S, G⟩

/-- In every reachable state the reference count of a frame covers the places that name it, so that
what a live directory reaches is neither free nor handed out again; and what is reached through
writable entries is reached in one way only. -/
theorem frames_safe {c : Config} {σ₀ σ : System} (h : Started c σ₀) {ops : List Op}
    (hr : runs System.step σ₀ ops = some σ) :
    (∀ p, σ.names p ≤ refCount σ.machine p) ∧
    (∀ p, 0 < σ.names p →
      ¬ IsFree σ.machine p ∧ ∀ q s', allocFrame σ.machine = .ok q s' → q ≠ p) ∧
    (∀ d ∈ σ.live, ∀ i, i < 1024 → priv (σ.machine.mem d i) = true →
      writable (σ.machine.mem d i) = true →
      ∀ d' ∈ σ.live, ∀ i', i' < 1024 → priv (σ.machine.mem d' i') = true →
        frame (σ.machine.mem d' i') = frame (σ.machine.mem d i) → d' = d ∧ i' = i) ∧
    (∀ d ∈ σ.live, ∀ i, i < 1024 → priv (σ.machine.mem d i) = true →
      writable (σ.machine.mem d i) = true →
      ∀ j, j < 1024 → priv (σ.machine.mem (frame (σ.machine.mem d i)) j) = true →
        writable (σ.machine.mem (frame (σ.machine.mem d i)) j) = true →
      ∀ t' ∈ σ.tables, ∀ j', j' < 1024 → priv (σ.machine.mem t' j') = true →
        frame (σ.machine.mem t' j') =
          frame (σ.machine.mem (frame (σ.machine.mem d i)) j) →
        t' = frame (σ.machine.mem d i) ∧ j' = j) := by
  obtain ⟨κ, a, S, G⟩ := h.reaches hr
  refine ⟨G.names_le_refCount, fun p hp => ⟨G.not_free hp, fun q s' => G.not_handed_out hp⟩,
    fun d hd i hi hp hw d' hd' i' hi' hp' hf => G.pde_unique hd hi hp hw hd' hi' hp' hf,
    fun d hd i hi hp _ j hj hpj hwj t' ht' j' hj' hp' hf => ?_⟩
  exact G.pte_unique (System.mem_tables.mpr ⟨d, hd, i, hi, hp, rfl⟩) hj hpj hwj ht' hj' hp' hf

/-- Eight megabytes of memory, and the APICs where they are on a PC. -/
def Config.small : Config := ⟨0x800000#32, 0xFEE00000#32, 0xFEC00000#32⟩

theorem Config.small_valid : Config.small.Valid :=
  ⟨by unfold Aligned; decide, by decide, by unfold Aligned; decide, by unfold Aligned; decide⟩

theorem small_starts : ∃ σ κ a, Started .small σ ∧ σ.live = ∅ ∧ Booted .small σ.machine κ a 504 :=
  exists_started Config.small_valid (by decide)

/-! ### Evaluation

`globalInit` fills each table with 1024 stores, and a read of a word stored earlier goes back through
all of them. With each table filled in one go the start of a small machine can be evaluated, and so
can what processes do on it. -/

/-- A table filled in one go. -/
def fill (p : Word) (f : Nat → Word) : K Unit :=
  modify fun s => { s with
    mem := Function.update s.mem p fun i => if i < PAGES_PER_TABLE then f i else s.mem p i }

theorem forI_store (p : Word) (f : Nat → Word) (n : Nat) (s : Machine) :
    forI n (fun i => store p i (f i)) s = .ok () { s with
      mem := Function.update s.mem p fun i => if i < n then f i else s.mem p i } := by
  induction n with
  | zero =>
    have hmem : (Function.update s.mem p fun i => if i < 0 then f i else s.mem p i) = s.mem := by
      simp only [Nat.not_lt_zero, if_false, Function.update_eq_self]
    rw [forI_zero, hmem]
    rfl
  | succ n ih =>
    have hnext : forI (n + 1) (fun i => store p i (f i)) s =
        EStateM.bind (forI n fun i => store p i (f i)) (fun _ => store p n (f n)) s := by
      rw [forI_succ]
      rfl
    rw [hnext]
    unfold EStateM.bind
    rw [ih]
    show EStateM.Result.ok () (Machine.put _ _ _ _) = _
    unfold Machine.put
    dsimp only
    rw [Function.update_self, Function.update_idem]
    congr 3
    funext i
    by_cases hi : i = n
    · rw [hi, Function.update_self, if_pos (Nat.lt_succ_self n)]
    · rw [Function.update_of_ne hi]
      exact if_congr (by omega) rfl rfl

/-- `globalInit` with its tables filled in one go. -/
def globalInitFill (kConfig : Config) : K Unit := do
  let kpd ← unsafeAllocFrame
  modify fun s => { s with kpd := kpd }
  forI (kConfig.memSize >>> 22).toNat fun pdi => do
    let pt ← unsafeAllocFrame
    fill pt (identity pdi)
    store kpd pdi (pt ||| kFlags)
  let pt ← load kpd 0
  store (pt &&& Flag.MASK) 0 0#32
  let va := kConfig.memSize &&& 0xffc00000#32
  if va < kConfig.memSize then do
    let pt ← unsafeAllocFrame
    store kpd (va >>> 22).toNat (pt ||| kFlags)
    forI ((kConfig.memSize.toNat - va.toNat + 4095) / 4096) fun k =>
      map kpd (va + BitVec.ofNat 32 (4096 * k)) (va + BitVec.ofNat 32 (4096 * k)) kFlags
  map kpd kConfig.localAPIC kConfig.localAPIC kFlags
  map kpd kConfig.ioAPIC kConfig.ioAPIC kFlags

theorem globalInit_eq_fill (kConfig : Config) : globalInit kConfig = globalInitFill kConfig := by
  have hfill : ∀ p f, forI PAGES_PER_TABLE (fun i => store p i (f i)) = fill p f := fun p f =>
    funext fun s => forI_store p f PAGES_PER_TABLE s
  unfold globalInit globalInitFill
  simp only [hfill]

/-- Memory and registers before the kernel starts. -/
def blank : Machine :=
  ⟨fun _ _ => 0#32, 0#32, 0#32, 0#32, 0#32, fun _ => 0#32, 0#32, 0#32, []⟩

/-- The small machine once the kernel has started. -/
def smallBooted : Option System :=
  match (do
    PhysMem.init VMM_FRAMES (Config.small.memSize - VMM_FRAMES)
    globalInitFill .small
    perCoreInit : K Unit) blank with
  | .ok _ s => some ⟨s, ∅⟩
  | .error _ _ => none

theorem smallBooted_started {σ : System} (h : smallBooted = some σ) : Started .small σ := by
  refine ⟨Config.small_valid, blank, ?_⟩
  unfold boot
  rw [globalInit_eq_fill]
  unfold smallBooted at h
  split at h
  · rename_i hboot
    obtain rfl := Option.some.inj h
    exact ⟨hboot, rfl⟩
  · cases h

/-- A run on the small machine, found by evaluation; what is asked of its steps and of the two states
is found with it. -/
theorem small_runs (ok : System → Op → Prop) [∀ σ op, Decidable (ok σ op)] (ops : List Op)
    (test : System → System → Bool)
    (h : smallBooted.any (fun σ₀ =>
      (runs (guarded System.step ok) σ₀ ops).any (test σ₀)) = true) :
    ∃ σ₀ σ, Started .small σ₀ ∧ runs System.step σ₀ ops = some σ ∧ RunOk System.step ok σ₀ ops ∧
      test σ₀ σ = true := by
  obtain ⟨σ₀, h₀, hrun⟩ := (Option.any_eq_true _ _).mp h
  obtain ⟨σ, hrun, htest⟩ := (Option.any_eq_true _ _).mp hrun
  obtain ⟨hr, hok⟩ := runs_guarded hrun
  exact ⟨σ₀, σ, smallBooted_started h₀, hr, hok, htest⟩

/-- A page, a child, and the next store of the parent, which gives it a frame of its own. -/
theorem frames_safe_small : ∃ σ₀ σ, Started .small σ₀ ∧
    runs System.step σ₀ [.create, .fault 0x605000#32 0x80000000#32 0x6#32, .fork 0x605000#32,
      .fault 0x605000#32 0x80000000#32 0x7#32] = some σ ∧
    (σ.live = {0x605000#32, 0x608000#32} ∧
      σ.machine.walk 0x605000#32 0x80000000#32 = 0x609407#32 ∧
      σ.machine.walk 0x608000#32 0x80000000#32 = 0x606405#32 ∧
      refCount σ.machine 0x609000#32 = 1 ∧ refCount σ.machine 0x606000#32 = 1) ∧
    (∀ p, σ.names p ≤ refCount σ.machine p) ∧
    ∀ p, 0 < σ.names p →
      ¬ IsFree σ.machine p ∧ ∀ q s', allocFrame σ.machine = .ok q s' → q ≠ p := by
  obtain ⟨σ₀, σ, h, hr, -, ht⟩ := small_runs (fun _ _ => True) [.create,
    .fault 0x605000#32 0x80000000#32 0x6#32, .fork 0x605000#32,
    .fault 0x605000#32 0x80000000#32 0x7#32] (fun _ σ => decide
      (σ.live = {0x605000#32, 0x608000#32} ∧
        σ.machine.walk 0x605000#32 0x80000000#32 = 0x609407#32 ∧
        σ.machine.walk 0x608000#32 0x80000000#32 = 0x606405#32 ∧
        refCount σ.machine 0x609000#32 = 1 ∧ refCount σ.machine 0x606000#32 = 1)) (by decide +kernel)
  have hsafe := frames_safe h hr
  exact ⟨σ₀, σ, h, hr, of_decide_eq_true ht, hsafe.1, hsafe.2.1⟩

end OsKernel.Vmm
