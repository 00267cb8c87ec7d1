import OsKernel.PhysMem.Decrefs

/-!
# Every order of the steps

The invariant along a run, and what it says once all calls have returned. A run in which two
cores need the first table of a chunk at once loses a reference: nothing keeps the second one
from replacing the table of the first.

The first section reads the invariant back as a statement about memory. In a quiet state every
summand that stands for a call is zero, so an entry is the number of references and the word
of a chunk has its table and its population: what `refCount` computes is `increfs` less
`decrefs`. And in every state, quiet or not, a table that a step is about to access is in use.

`counts_lost` has the two runs that go wrong. In one a reference is lost, and in the other a
call writes to a table that has been freed. Both take two cores and one chunk.
-/

set_option autoImplicit false

namespace OsKernel.PhysMem

open Lib Lib.Prog K

section

variable {T : Type} [Fintype T] {lo hi : Nat} {s s' : Cores T} {t : T} {p a : Word}
  {role : Word → Role T} {fresh : Bool} {c : Nat}

/-! ## What the invariant says

The invariant is about calls in the middle; the result is about the state when no call is in the
middle. Then every total over the calls is 0, and the books say that an entry holds the references
made and not given back, and that a chunk has a table exactly if one of its entries is not zero. -/

/-- A chunk that counts something has a table, and its word names it. -/
theorem tableOf_of_count (R : Roles lo hi s role) (S : Sums lo hi s) (h : s.Counts c) :
    s.table c = some (s.tableOf c) := by
  cases ht : s.table c with
  | none => exact absurd (count_eq_zero.mpr ((S.chunk c).bare ht).count) h
  | some a =>
    have hal : Aligned a := (R.frameIn (R.live_of_table ht)).1
    exact congrArg some (((S.chunk c).tabled ht).tableOf hal).symm

/-- Nobody has anything in hand. -/
theorem Cores.Quiet.total (hquiet : s.Quiet) {f : Pc → Nat} (hf : f .idle = 0) :
    Lib.total f s.pc = 0 :=
  total_eq_zero_iff.mpr fun t => by rw [hquiet t]; exact hf

theorem Cores.Quiet.due (hquiet : s.Quiet) : s.due p = s.spare p := by
  unfold Cores.due
  rw [hquiet.total rfl, Nat.add_zero]

/-- The references that are left. -/
theorem Sums.books_quiet (S : Sums lo hi s) (hquiet : s.Quiet) :
    s.spare p + s.decrefs p = s.increfs p := by
  have hbooks := S.books p
  rw [hquiet.total rfl] at hbooks
  exact hbooks

theorem Sums.spare_pos_iff (S : Sums lo hi s) (hquiet : s.Quiet) :
    0 < s.spare p ↔ s.decrefs p < s.increfs p := by
  have hbooks := S.books_quiet hquiet (p := p)
  omega

/-- Nothing is about to be counted, so a table counts something. -/
theorem Sums.counts_of_table (S : Sums lo hi s) (hquiet : s.Quiet) (h : s.table c = some a) :
    s.Counts c := by
  rw [Cores.Counts, Ne, count_eq_zero]
  rcases S.kept c a h with hpos | ⟨u, hu⟩
  · exact Nat.ne_of_gt hpos
  · rw [hquiet u] at hu
    exact hu.elim

/-- A chunk that counts nothing has no references. -/
theorem Sums.spare_of_not (S : Sums lo hi s) (hquiet : s.Quiet) (hp : FrameIn lo hi p)
    (h : ¬s.Counts (s.chunk p)) : s.spare p = 0 := by
  cases ht : s.table (s.chunk p) with
  | none => exact hquiet.due.symm.trans (((S.chunk _).bare ht).due p hp rfl)
  | some a => exact absurd (S.counts_of_table hquiet ht) h

/-- What the two levels hold for a frame. -/
theorem refCount_quiet (R : Roles lo hi s role) (S : Sums lo hi s) (hquiet : s.Quiet)
    (hp : FrameIn lo hi p) : refCount s.machine p = s.spare p := by
  by_cases hc : s.Counts (s.chunk p)
  · have B := (S.chunk _).tabled (tableOf_of_count R S hc)
    exact (if_neg hc).trans ((B.entry p hp rfl).trans hquiet.due)
  · rw [S.spare_of_not hquiet hp hc]
    exact if_pos (not_not.mp hc)

/-- Some entry of a table that counts is not zero, and it is a frame's. -/
theorem exists_of_counts (R : Roles lo hi s role) (S : Sums lo hi s) (hquiet : s.Quiet)
    (h : s.Counts c) : ∃ p, FrameIn lo hi p ∧ s.chunk p = c ∧ 0 < s.spare p := by
  have B := (S.chunk _).tabled (tableOf_of_count R S h)
  have hpos : 0 < s.count c := Nat.pos_of_ne_zero fun h0 => h (count_eq_zero.mpr h0)
  have hcount := B.count
  rw [hquiet.total rfl, hquiet.total rfl, Nat.add_zero, Nat.add_zero] at hcount
  obtain ⟨r, hr, hne⟩ := nonzero_pos_iff.mp (hcount ▸ hpos)
  obtain ⟨p, hp, hc, hslot⟩ := B.rest r hr hne
  refine ⟨p, hp, hc, Nat.pos_of_ne_zero fun h0 => hne ?_⟩
  have hentry := B.entry p hp hc
  rw [hquiet.due, h0, hslot] at hentry
  exact BitVec.toNat_inj.mp hentry

omit [Fintype T] in
theorem Roles.not_free (R : Roles lo hi s role) (h : s.pool.live p = true) :
    ¬IsFree s.machine p := by
  obtain ⟨used, free, P⟩ := R.parts
  rintro ⟨l, hl, hp⟩
  rw [Chain.unique P.chain hl] at hp
  rw [(P.freeIn p hp).2] at h
  cases h

/-- A table that a step accesses is in use. -/
theorem live_of_accesses (R : Roles lo hi s role) (S : Sums lo hi s)
    (h : (s.pc t).accesses = some a) : s.pool.live a = true := by
  cases hpc : s.pc t with
  | fetchAdd p fresh rtb =>
    rw [hpc] at h
    cases h
    exact R.live_of_table (S.uses t p a (by rw [hpc]; rfl))
  | subFetch p rtb =>
    rw [hpc] at h
    cases h
    exact R.live_of_table (S.uses t p a (by rw [hpc]; rfl))
  | dealloc p rtb =>
    rw [hpc] at h
    cases h
    rw [R.live, (R.doomed t a).mpr ⟨p, hpc⟩]
    exact fun h => by cases h
  | _ =>
    rw [hpc] at h
    cases h

theorem Inv.exact (I : Inv lo hi s) : s.Exact lo hi := by
  obtain ⟨role, R, S⟩ := I
  have hclient : s.Quiet → ∀ q, role q = .client ↔ s.decrefs q < s.increfs q := by
    intro hquiet q
    rw [R.client, ← S.spare_pos_iff hquiet]
    refine or_iff_left ?_
    rintro ⟨u, hu⟩
    rw [hquiet u] at hu
    cases hu
  -- with no call under way, a frame is a client's as long as it has more increfs than decrefs
  constructor
  · intro hquiet p hp
    rw [refCount_quiet R S hquiet hp]
    exact S.books_quiet hquiet
  · intro hquiet c
    constructor
    · intro hc
      obtain ⟨p, hp, hpc, hspare⟩ := exists_of_counts R S hquiet hc
      exact ⟨p, hp, hpc, (S.spare_pos_iff hquiet).mp hspare⟩
    · rintro ⟨p, hp, rfl, hleft⟩
      by_contra hc
      rw [← S.spare_pos_iff hquiet, S.spare_of_not hquiet hp hc] at hleft
      exact Nat.lt_irrefl 0 hleft
  · intro hquiet q
    rw [R.live, ← hclient hquiet]
    constructor
    · intro hrole
      cases hr : role q with
      | free => exact absurd hr hrole
      | client => exact .inl rfl
      | table c =>
        have ht := (R.table c q).mpr hr
        have hc := S.counts_of_table hquiet ht
        exact .inr ⟨c, hc, Option.some.inj ((tableOf_of_count R S hc).symm.trans ht)⟩
      | doomed u =>
        obtain ⟨p, hp⟩ := (R.doomed u q).mp hr
        rw [hquiet u] at hp
        cases hp
    · rintro (h | ⟨c, hc, rfl⟩)
      · rw [h]
        exact fun h => by cases h
      · rw [(R.table c _).mp (tableOf_of_count R S hc)]
        exact fun h => by cases h
  · intro hquiet c hc
    have hrole := (R.table c _).mp (tableOf_of_count R S hc)
    rw [← hclient hquiet]
    refine ⟨fun h => ?_, fun c' hc' heq => ?_⟩
    · rw [hrole] at h
      cases h
    · have hrole' := (R.table c' _).mp (tableOf_of_count R S hc')
      rw [heq, hrole] at hrole'
      injection hrole' with h
      exact h.symm
  · intro t rtb h
    have hlive := live_of_accesses R S h
    exact ⟨hlive, R.not_free hlive⟩

end

section run

variable {T : Type} [DecidableEq T] [Fintype T] {lo hi : Nat} {s s' : Cores T} {t : T} {p rtb : Word}
  {role : Word → Role T} {fresh : Bool}

/-! ## One step

Each action is one of the steps of the two modules before, under the condition that is
asked of it. The conditions are those that the source takes for granted when it decides by the
count whether there is a table. -/

/-- The section of `incref`. -/
theorem entered_inv (R : Roles lo hi s role) (S : Sums lo hi s) (hpc : s.pc t = .enter p fresh)
    (hok : s.machine.refs (s.chunk p) &&& 0xfff#32 = 0#32 → s.table (s.chunk p) = none)
    (h : s.entered p = some s') : Inv lo hi (s'.setPc t (.load p fresh)) := by
  unfold Cores.entered at h
  cases hx : ensureTable p s.machine with
  | error e m =>
    rw [hx] at h
    cases h
  | ok u m =>
    rw [hx] at h
    by_cases hzero : s.machine.refs (s.chunk p) &&& 0xfff#32 = 0#32
    · obtain ⟨used, free, P⟩ := R.parts
      have hspec := wp_mono (wp_and P.alloc unsafeAllocFrame_keeps) (fun _ _ h => h)
        (fun _ _ _ => trivial)
      obtain ⟨a, m₁, ⟨F, hstart, hrefs, hmem⟩, rfl⟩ := wp_ok (ensureTable_absent hzero hspec) hx
      have hword : Function.update m₁.refs (ridx s.machine.start p) a (s.chunk p) = a :=
        Function.update_self ..
      simp only [if_pos hzero, hword] at h
      obtain rfl := Option.some.inj h
      exact installed R S hpc (hok hzero) F hstart hrefs hmem
    · obtain rfl := wp_ok (ensureTable_present hzero) hx
      simp only [if_neg hzero] at h
      obtain rfl := Option.some.inj h
      exact moved R S (by rw [hpc]; rfl) rfl (by rw [hpc]; rfl) (by rw [hpc]; rfl) (by rw [hpc]; rfl)
        (by rw [hpc]; rfl) (by rw [hpc]; exact fun _ => rfl) (by rw [hpc]; exact fun _ => rfl)
        (by rw [hpc]; exact fun _ h => h.elim) (fun _ _ h => by cases h)

/-- The next step of a call. -/
theorem Inv.go (I : Inv lo hi s) (hok : s.StepOk (.go t)) (h : s.go t = some s') : Inv lo hi s' := by
  obtain ⟨role, R, S⟩ := I
  unfold Cores.go at h
  change s.CallOk (s.pc t) at hok
  cases hpc : s.pc t with
  | idle =>
    rw [hpc] at h
    cases h
  | enter p fresh =>
    rw [hpc] at h hok
    obtain ⟨s₁, h₁, rfl⟩ := Option.map_eq_some_iff.mp h
    exact entered_inv R S hpc hok h₁
  | load p fresh =>
    rw [hpc] at h hok
    obtain rfl := Option.some.inj h
    obtain ⟨a, ha⟩ := Option.ne_none_iff_exists'.mp hok
    -- the address that is loaded is that of the table
    have hal : Aligned a := (R.frameIn (R.live_of_table ha)).1
    rw [((S.chunk _).tabled ha).tableOf hal]
    refine moved R S (by rw [hpc]; rfl) rfl (by rw [hpc]; rfl) (by rw [hpc]; rfl) (by rw [hpc]; rfl)
      (by rw [hpc]; rfl) (by rw [hpc]; exact fun _ => rfl) (by rw [hpc]; exact fun _ => rfl)
      (by rw [hpc]; exact fun _ h => h) (fun q b hq => ?_)
    cases hq
    exact ha
  | fetchAdd p fresh rtb =>
    rw [hpc] at h hok
    dsimp only at h
    split at h
    · rename_i hold
      obtain rfl := Option.some.inj h
      exact countedFirst R S hpc hold
    · rename_i hold
      obtain rfl := Option.some.inj h
      exact countedAgain R S hpc hold hok
  | addFetch p fresh =>
    rw [hpc] at h hok
    obtain rfl := Option.some.inj h
    exact added R S hpc hok
  | read p =>
    rw [hpc] at h
    dsimp only at h
    split at h
    · cases h
    · rename_i hcount
      obtain rfl := Option.some.inj h
      have ha := tableOf_of_count R S hcount
      refine moved R S (by rw [hpc]; rfl) rfl (by rw [hpc]; rfl) (by rw [hpc]; rfl) (by rw [hpc]; rfl)
        (by rw [hpc]; rfl) (by rw [hpc]; exact fun _ => rfl) (by rw [hpc]; exact fun _ => rfl)
        (by rw [hpc]; exact fun _ h => h) (fun q b hq => ?_)
      cases hq
      exact ha
  | subFetch p rtb =>
    rw [hpc] at h
    dsimp only at h
    split at h
    · rename_i hval
      obtain rfl := Option.some.inj h
      exact uncountedLast R S hpc hval
    · rename_i hval
      obtain rfl := Option.some.inj h
      exact uncountedMore R S hpc hval
  | call p =>
    rw [hpc] at h
    obtain ⟨s₁, h₁, rfl⟩ := Option.map_eq_some_iff.mp h
    unfold Cores.givenBack at h₁
    split at h₁
    · rename_i hx
      obtain rfl := Option.some.inj h₁
      exact released R S hpc hx
    · cases h₁
  | drop p =>
    rw [hpc] at h hok
    dsimp only at h
    split at h
    · rename_i hnone
      obtain rfl := Option.some.inj h
      exact forgotten R S hpc hnone (hok hnone)
    · rename_i hleft
      obtain rfl := Option.some.inj h
      exact dropped R S hpc hleft
  | dealloc p rtb =>
    rw [hpc] at h
    obtain ⟨s₁, h₁, rfl⟩ := Option.map_eq_some_iff.mp h
    unfold Cores.givenBack at h₁
    split at h₁
    · rename_i hx
      obtain rfl := Option.some.inj h₁
      exact discarded R S hpc hx
    · cases h₁

theorem Inv.step {act : Act T} (I : Inv lo hi s) (hok : s.StepOk act) (h : s.step act = some s') :
    Inv lo hi s' := by
  cases act with
  | go t => exact I.go hok h
  | alloc t =>
    obtain ⟨role, R, S⟩ := I
    dsimp only [Cores.step] at h
    split at h
    · rename_i hidle
      split at h
      · rename_i p m hx
        obtain rfl := Option.some.inj h
        obtain ⟨used, free, P⟩ := R.parts
        obtain ⟨hstart, hrefs, hmem⟩ := wp_ok unsafeAllocFrame_keeps hx
        exact allocated R S hidle (wp_ok P.alloc hx) hstart hrefs hmem
      · cases h
    · cases h
  | incref t p =>
    obtain ⟨role, R, S⟩ := I
    dsimp only [Cores.step] at h
    split at h
    · rename_i hcall
      obtain rfl := Option.some.inj h
      have hborrowed : Function.update s.borrowed p (s.borrowed p + 1) p = s.borrowed p + 1 :=
        Function.update_self ..
      refine begun R S hcall.1 hcall.2.1 (.inl rfl) rfl rfl rfl
        (fun q hq => ⟨rfl, Function.update_of_ne hq ..⟩) rfl rfl rfl rfl ?_ fun _ => hcall.2.1
      have hone : (Pc.enter p false).borrows p = 1 := by simp [Pc.borrows]
      rw [hone]
      exact hborrowed
    · cases h
  | decref t p =>
    obtain ⟨role, R, S⟩ := I
    dsimp only [Cores.step] at h
    split at h
    · rename_i hcall
      obtain rfl := Option.some.inj h
      obtain ⟨hidle, hspare, hroom, -⟩ := hcall
      have hless : Function.update s.spare p (s.spare p - 1) p = s.spare p - 1 :=
        Function.update_self ..
      have hback : Function.update s.spare p (s.spare p - 1) p + 1 = s.spare p := by
        rw [hless]
        exact Nat.sub_add_cancel hspare
      have hone : (Pc.read p).weight p = 1 ∧ (Pc.read p).tied p = 1 := by simp [Pc.weight, Pc.tied]
      refine begun R S hidle hspare (.inr rfl) rfl rfl rfl
        (fun q hq => ⟨Function.update_of_ne hq .., rfl⟩) rfl rfl ?_ ?_ rfl fun h => ?_
      · rw [hone.1]
        exact hback
      · rw [hone.2]
        exact hback
      · show 0 < Function.update s.spare p (s.spare p - 1) p
        have hpos : 0 < s.borrowed p := h
        rw [hless]
        omega
    · cases h
  | fill p words =>
    obtain ⟨role, R, S⟩ := I
    dsimp only [Cores.step] at h
    split at h
    · rename_i hspare
      obtain rfl := Option.some.inj h
      exact filled R S hspare words
    · cases h

/-! ## The first state -/

theorem init_start {start size : Word} {m m' : Machine} (hs : Aligned start) (hz : Aligned size)
    (h : PhysMem.init start size m = .ok () m') : m'.start = start ∧ m'.refs = (fun _ => 0#32) := by
  have hspec : wp (PhysMem.init start size)
      (fun _ m' => m'.start = start ∧ m'.refs = fun _ => 0#32) (fun _ _ => False) m := by
    unfold PhysMem.init
    simp only [wp_bind, wp_assert, offset_eq_zero hs, offset_eq_zero hz, if_true, wp_modify, and_self]
  obtain ⟨hstart, hrefs⟩ := wp_ok hspec h
  exact ⟨hstart, hrefs⟩

omit [DecidableEq T] in
theorem Inv.started {start size : Word} {m m' : Machine} (hpos : start ≠ 0#32) (hs : Aligned start)
    (hz : Aligned size) (hfit : start.toNat + size.toNat ≤ 2 ^ 32)
    (h : PhysMem.init start size m = .ok () m') :
    Inv start.toNat (start.toNat + size.toNat) (Cores.started m' : Cores T) := by
  obtain ⟨hstart, hrefs⟩ := init_start hs hz h
  have hidle : ∀ (f : Pc → Nat), f .idle = 0 → total f (Cores.started m' : Cores T).pc = 0 :=
    fun f hf => total_eq_zero_iff.mpr fun _ => hf
  have hm : (Cores.started m' : Cores T).machine = m' := rfl
  refine ⟨fun _ => .free, ?_, ?_⟩
  · exact {
      parts := ⟨_, _, .init hpos hs hz hfit h⟩
      start := congrArg BitVec.toNat hstart
      aligned := by rw [hm, hstart]; exact hs
      live := fun p => iff_of_false (fun h => by cases h) fun h => h rfl
      table := fun c a => iff_of_false (fun h => by cases h) fun h => by cases h
      client := fun p => by
        refine iff_of_false (fun h => by cases h) ?_
        rintro (h | ⟨t, ht⟩)
        · exact Nat.lt_irrefl 0 h
        · cases ht
      doomed := fun t a => iff_of_false (fun h => by cases h) fun ⟨p, hp⟩ => by cases hp
      sole := fun t p h => by cases h }
  · exact {
      chunk := fun c => by
        refine Bare.chunk ⟨?_, hidle _ rfl, hidle _ rfl, fun p _ _ => ?_⟩ rfl
        swap
        · exact (Nat.zero_add _).trans (hidle (Pc.weight p) rfl)
        unfold Cores.count
        rw [hm, hrefs]
        rfl
      kept := fun c a h => by cases h
      uses := fun t p a h => by cases h
      books := fun p => (Nat.zero_add _).trans (hidle (Pc.tied p) rfl)
      borrowed := fun p => (hidle (Pc.borrows p) rfl).symm
      lent := fun p h => absurd h (Nat.lt_irrefl 0) }

/-! ## Every run -/

/-- Where no section finds the count of a chunk at zero that has a table, no `incref` loads the word
of a chunk that has none, no `sub_fetch` on the word comes to zero behind a load, and nothing
overflows, the counts are exact in every order of the steps. -/
theorem counts_exact {start size : Word} {m m' : Machine} (hpos : start ≠ 0#32) (hs : Aligned start)
    (hz : Aligned size) (hfit : start.toNat + size.toNat ≤ 2 ^ 32)
    (hinit : PhysMem.init start size m = .ok () m') {acts : List (Act T)} {s : Cores T}
    (hok : RunOk Cores.step Cores.StepOk (Cores.started m') acts)
    (hrun : runs Cores.step (Cores.started m') acts = some s) :
    s.Exact start.toNat (start.toNat + size.toNat) :=
  Inv.exact (runs_inv (Inv start.toNat (start.toNat + size.toNat)) (fun _ _ _ I hok h => I.step hok h)
    (Inv.started hpos hs hz hfit hinit) hok hrun)

/-- The pool of the runs below: eight frames. -/
def smallPool : Machine :=
  { topPool with start := 0x1000#32, avail := 0x1000#32, limit := 0x9000#32 }

/-- One core has counted its frame; while it takes it back, the other counts one of its own. -/
def sharedRun : List (Act Bool) :=
  [.alloc false, .go false, .go false, .go false, .go false, .alloc true, .incref false 0x1000#32,
    .go true, .go false, .go true, .go false, .go true, .go false, .decref false 0x1000#32, .go true,
    .go false, .go false]

theorem counts_exact_shared : ∃ s, runs Cores.step (Cores.started smallPool) sharedRun = some s ∧
    s.Exact 0x1000 0x9000 := by
  have hok : RunOk Cores.step Cores.StepOk (Cores.started smallPool) sharedRun := by
    decide +kernel
  have hsome : (runs Cores.step (Cores.started smallPool) sharedRun).isSome = true := by
    decide +kernel
  obtain ⟨s, hrun⟩ := Option.isSome_iff_exists.mp hsome
  have hinit : PhysMem.init 0x1000#32 0x8000#32 topPool = .ok () smallPool := rfl
  exact ⟨s, hrun, counts_exact (by decide) (by decide) (by decide) (by decide) hinit hok hrun⟩

/-- Both cores need the first table of the chunk. The second section replaces the table in which the
first core has counted its frame. -/
def lostRun : List (Act Bool) :=
  [.alloc false, .alloc true, .go false, .go false, .go false, .go true, .go true, .go true, .go true,
    .go false]

/-- One core takes the last frame of the chunk back. The other has found a count in the section, and
loads the table when the count is gone. -/
def staleRun : List (Act Bool) :=
  [.alloc false, .go false, .go false, .go false, .go false, .decref false 0x1000#32, .go false,
    .go false, .go false, .alloc true, .go true, .go false, .go true, .go false]

/-- A reference is lost when all calls have returned, and a table is accessed that has been freed. -/
theorem counts_lost :
    (∃ s, runs Cores.step (Cores.started smallPool) lostRun = some s ∧ s.Quiet ∧
      s.increfs 0x1000#32 = 1 ∧ s.decrefs 0x1000#32 = 0 ∧ refCount s.machine 0x1000#32 = 0) ∧
    ∃ s, runs Cores.step (Cores.started smallPool) staleRun = some s ∧
      (s.pc true).accesses = some 0x2000#32 ∧ s.pool.live 0x2000#32 = false := by
  have hlost : (runs Cores.step (Cores.started smallPool) lostRun).any (fun s =>
      decide ((∀ t, s.pc t = .idle) ∧ s.increfs 0x1000#32 = 1 ∧ s.decrefs 0x1000#32 = 0 ∧
        refCount s.machine 0x1000#32 = 0)) = true := by
    decide +kernel
  have hstale : (runs Cores.step (Cores.started smallPool) staleRun).any (fun s =>
      decide ((s.pc true).accesses = some 0x2000#32 ∧ s.pool.live 0x2000#32 = false)) = true := by
    decide +kernel
  constructor
  · obtain ⟨s, hs, h⟩ := (Option.any_eq_true ..).mp hlost
    obtain ⟨hquiet, hcounts⟩ := of_decide_eq_true h
    exact ⟨s, hs, hquiet, hcounts⟩
  · obtain ⟨s, hs, h⟩ := (Option.any_eq_true ..).mp hstale
    exact ⟨s, hs, of_decide_eq_true h⟩

end run

end OsKernel.PhysMem
