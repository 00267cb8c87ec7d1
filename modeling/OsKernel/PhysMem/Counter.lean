import OsKernel.Lib.Runs
import OsKernel.PhysMem.Account

/-!
# A counter for each frame

Runs of `alloc_frame`, `incref` and `decref`. A `decref` that takes the last reference calls
back before it gives the frame away, and the callback may go on to `decref` other frames; so a
call of it is two steps here, and whatever the callback does are the steps between them. The
callbacks that have not returned are a stack.

`Counting` counts on the side: `count p` is the number of references that there ought to be,
kept by the steps themselves and not read from memory. `Exact` compares the two levels in
memory with it, and the free list with both. So the result is about the encoding as a whole:
the packed words, the tables that come and go, and the order in which frames return to the
list while callbacks run.

A callback is a function of the source's type, and may be any: `Calls` says of `decref(p, f)`
that, for every `f`, the call is the first step, what `f` does, and the second step, or the
first step alone. In the kernel `f` is `destroy_pg` or `destroy_pt`, and the stack is two deep
at most; nothing here depends on it.

The steps do not overlap. `PhysMem/Calls.lean` has the same calls on several cores.
-/

set_option autoImplicit false

namespace OsKernel.PhysMem

open Lib Lib.Prog K

/-- The allocator, and what it is to count. -/
structure Counting where
  machine : Machine
  /-- the references to each frame -/
  count : Word → Nat
  /-- the frames whose callbacks run, the innermost first -/
  running : List Word

inductive CountOp
  | alloc
  | incref (p : Word)
  /-- `decref(p, f)` up to the call of `f`, or to its end if `f` is not called -/
  | decref (p : Word)
  /-- the innermost `f` returns, and its `decref` goes on to the end -/
  | done
  /-- a client writes to its frame -/
  | fill (p : Word) (words : Nat → Word)

namespace Counting

def step (s : Counting) : CountOp → Option Counting
  | .alloc =>
    match allocFrame s.machine with
    | .ok p m => some { s with machine := m, count := Function.update s.count p 1 }
    | .error _ _ => none
  | .incref p =>
    if 0 < s.count p then
      match PhysMem.incref p s.machine with
      | .ok _ m => some { s with machine := m, count := Function.update s.count p (s.count p + 1) }
      | .error _ _ => none
    else none
  | .decref p =>
    if 0 < s.count p then
      match subRef p s.machine with
      | .ok last m => some {
          machine := m
          count := Function.update s.count p (s.count p - 1)
          running := if last then p :: s.running else s.running }
      | .error _ _ => none
    else none
  | .done =>
    match s.running with
    | [] => none
    | p :: rest =>
      match release p s.machine with
      | .ok _ m => some { s with machine := m, running := rest }
      | .error _ _ => none
  | .fill p words =>
    if 0 < s.count p then
      some { s with machine := { s.machine with mem := Function.update s.machine.mem p words } }
    else none

/-- The frame is referred to, or its callback runs. -/
def Used (s : Counting) (p : Word) : Prop := 0 < s.count p ∨ p ∈ s.running

instance (s : Counting) (p : Word) : Decidable (s.Used p) := inferInstanceAs (Decidable (_ ∨ _))

/-- How many frames of the chunk are used. -/
def used (s : Counting) (c : Nat) : Nat :=
  ((Finset.range 2048).filter fun r =>
    s.machine.start.toNat + (c * 2048 + r) * 4096 < 2 ^ 32 ∧
      s.Used (frameAt s.machine.start c r)).card

/-- The address in the word of the chunk. -/
def table (s : Counting) (c : Nat) : Word := s.machine.refs c &&& 0xfffff000#32

/-- The frames on the free list, in its order. -/
def FreeList (s : Counting) (l : List Word) : Prop := Chain s.machine.mem s.machine.firstFree l

/-- The two levels hold the counts, and every frame has one place. -/
structure Exact (s : Counting) : Prop where
  /-- the callbacks that run are for frames without a reference, each once -/
  running : s.running.Nodup ∧ ∀ p ∈ s.running, s.count p = 0
  pool : ∀ p, s.Used p → InPool s.machine p
  /-- the low bits of the chunk's word are the number of its frames that are used -/
  population : ∀ c, (s.machine.refs c &&& 0xfff#32).toNat = s.used c ∧ s.used c ≤ 2048
  /-- the 16-bit entry is the count -/
  entry : ∀ p, InPool s.machine p → 0 < s.used (ridx s.machine.start p) →
    (rd16 (s.machine.mem (s.table (ridx s.machine.start p))) (rofs s.machine.start p)).toNat =
      s.count p
  /-- a chunk with used frames has a table, which is a frame and no client's -/
  tables : ∀ c, 0 < s.used c →
    InPool s.machine (s.table c) ∧ ¬s.Used (s.table c) ∧ ¬IsFree s.machine (s.table c)
  /-- no two chunks share it -/
  apart : ∀ c c', 0 < s.used c → 0 < s.used c' → s.table c = s.table c' → c = c'
  /-- what is neither used nor such a table is free -/
  free : ∀ p, InPool s.machine p → ¬s.Used p → (∀ c, 0 < s.used c → s.table c ≠ p) →
    IsFree s.machine p
  notUsed : ∀ p, IsFree s.machine p → InPool s.machine p ∧ ¬s.Used p

/-- What a step does to the counts, to the callbacks and to the free list. -/
def Does (s : Counting) : CountOp → Counting → Prop
  | .alloc, t => t.running = s.running ∧
      (∃ p, ¬s.Used p ∧ t.count = Function.update s.count p 1) ∧
      ∃ l k, s.FreeList l ∧ t.FreeList (l.drop k)
  | .incref p, t => t.running = s.running ∧ t.count = Function.update s.count p (s.count p + 1) ∧
      ∃ l, s.FreeList l ∧ t.FreeList l
  | .decref p, t => t.count = Function.update s.count p (s.count p - 1) ∧
      t.running = (if t.count p = 0 then p :: s.running else s.running) ∧
      ∃ l, s.FreeList l ∧ t.FreeList l
  | .done, t => t.count = s.count ∧ ∃ p, s.running = p :: t.running ∧ ∃ l, s.FreeList l ∧
      t.FreeList (if t.used (ridx s.machine.start p) = 0
        then s.table (ridx s.machine.start p) :: p :: l else p :: l)
  | .fill _ _, t => t.running = s.running ∧ t.count = s.count ∧ ∃ l, s.FreeList l ∧ t.FreeList l

/-- The steps are the call `decref(p, f)`: if the count comes to zero then what `f` does is between
them, and otherwise `f` is not called. -/
def Calls (s t : Counting) (p : Word) (f : Word → K Unit) : Prop :=
  if t.count p = 0 then
    ∀ u w : Counting, f p t.machine = .ok () u.machine → u.running = t.running →
      u.step .done = some w → PhysMem.decref p f s.machine = .ok () w.machine
  else PhysMem.decref p f s.machine = .ok () t.machine

/-! ## The ledger

The counts of this module are the abstract ones: how many references each frame has and which
callbacks are running. `own` reads the ledger of the allocator off them, and `Backs` says that the
allocator keeps that ledger. What is said of entries and populations (`exact`) follows. -/

/-- Who holds the frame. -/
def own (s : Counting) (p : Word) : Own :=
  match s.count p with
  | k + 1 => .counted k
  | 0 => if p ∈ s.running then .dying else .none

/-- The allocator agrees with the ledger. -/
structure Backs (s : Counting) (L : Ledger) : Prop where
  inv : PInv s.machine L
  owners : L.own = s.own
  running : s.running.Nodup ∧ ∀ p ∈ s.running, s.count p = 0

variable {s t : Counting} {L : Ledger} {p : Word} {k : Nat}

theorem own_counted (h : s.count p = k + 1) : s.own p = .counted k := by
  unfold own
  rw [h]

theorem own_zero (h : s.count p = 0) : s.own p = if p ∈ s.running then .dying else .none := by
  unfold own
  rw [h]

theorem live_iff : (s.own p).live = true ↔ s.Used p := by
  unfold Used
  cases hc : s.count p with
  | succ k =>
    rw [own_counted hc]
    exact ⟨fun _ => .inl (Nat.succ_pos k), fun _ => rfl⟩
  | zero =>
    rw [own_zero hc]
    by_cases hr : p ∈ s.running
    · rw [if_pos hr]
      exact ⟨fun _ => .inr hr, fun _ => rfl⟩
    · rw [if_neg hr]
      exact ⟨nofun, fun h => absurd (h.resolve_left (Nat.lt_irrefl 0)) hr⟩

theorem own_none_iff : s.own p = .none ↔ ¬s.Used p := by
  rw [← live_iff]
  unfold own
  split
  · exact ⟨nofun, fun h => absurd rfl h⟩
  · split
    · exact ⟨nofun, fun h => absurd rfl h⟩
    · exact ⟨fun _ => nofun, fun _ => rfl⟩

theorem refs_own : (s.own p).refs = s.count p := by
  unfold own
  split
  · rename_i hc
    rw [hc]
    rfl
  · rename_i hc
    rw [hc]
    split <;> rfl

theorem pop_own (c : Nat) : pop s.machine.start s.own c = s.used c := by
  unfold pop used
  refine congrArg Finset.card (Finset.filter_congr fun r _ => ?_)
  unfold slot
  by_cases hlt : s.machine.start.toNat + (c * 2048 + r) * 4096 < 2 ^ 32
  · rw [if_pos hlt, live_iff]
    exact ⟨fun h => ⟨hlt, h⟩, fun h => h.2⟩
  · rw [if_neg hlt]
    exact ⟨nofun, fun h => absurd h.1 hlt⟩

namespace Backs

theorem pop_eq (B : Backs s L) (c : Nat) : pop s.machine.start L.own c = s.used c := by
  rw [B.owners]
  exact pop_own c

/-- The tables of the ledger are those that the words of `refs` name. -/
theorem table_iff (B : Backs s L) {c : Nat} {t : Word} :
    L.table c = some t ↔ 0 < s.used c ∧ s.table c = t := by
  constructor
  · intro ht
    have hpos := B.inv.popPos c t ht nofun
    rw [B.pop_eq] at hpos
    exact ⟨hpos, (B.inv.refs_split ht).1⟩
  · rintro ⟨hpos, rfl⟩
    cases ht : L.table c with
    | none =>
      have hzero := (B.inv.noTable c ht).2
      rw [B.pop_eq] at hzero
      exact absurd hzero (Nat.ne_of_gt hpos)
    | some t => rw [← (B.inv.refs_split ht).1]; rfl

theorem none_iff (B : Backs s L) : L.own p = .none ↔ ¬s.Used p := by
  rw [B.owners]
  exact own_none_iff

theorem isFree_iff (B : Backs s L) : IsFree s.machine p ↔ p ∈ L.free := B.inv.isFree_iff

theorem population (B : Backs s L) (c : Nat) :
    (s.machine.refs c &&& 0xfff#32).toNat = s.used c := by
  rw [← B.pop_eq c]
  cases ht : L.table c with
  | none =>
    obtain ⟨hlow, hpop⟩ := B.inv.noTable c ht
    rw [hpop, toNat_and_low]
    exact hlow
  | some t => exact (B.inv.refs_split ht).2

theorem exact (B : Backs s L) : Exact s where
  running := B.running
  pool p hp := B.inv.ownIn p fun h => (B.none_iff.mp h) hp
  population c := ⟨B.population c, by rw [← B.pop_eq c]; exact pop_le ..⟩
  entry p hp hpos := by
    rw [B.inv.counters _ _ (B.table_iff.mpr ⟨hpos, rfl⟩) _ (rofs_lt hp.2.1),
      slot_self _ B.inv.startAl hp.1 hp.2.1, B.owners]
    exact refs_own
  tables c hpos := by
    have ht := B.table_iff.mpr ⟨hpos, rfl⟩
    refine ⟨B.inv.tableIn c _ ht, B.none_iff.mp (B.inv.tableOwn c _ ht), fun hfree => ?_⟩
    exact B.inv.freeTable _ (B.isFree_iff.mp hfree) c ht
  apart c c' hpos hpos' heq :=
    B.inv.tableInj c c' _ (B.table_iff.mpr ⟨hpos, rfl⟩) (B.table_iff.mpr ⟨hpos', heq.symm⟩)
  free p hp hno hnot := by
    refine B.isFree_iff.mpr ((B.inv.cover p hp (B.none_iff.mpr hno)).resolve_right ?_)
    rintro ⟨c, hc⟩
    obtain ⟨hpos, htable⟩ := B.table_iff.mp hc
    exact hnot c hpos htable
  notUsed p hp := by
    have hmem := B.isFree_iff.mp hp
    exact ⟨B.inv.freeIn p hmem, B.none_iff.mp (B.inv.freeOwn p hmem)⟩

theorem freeList (B : Backs s L) : s.FreeList L.free := B.inv.chain

end Backs

/-! ## The steps

The callback of a `decref` is not run inside its step: the frame is put on `running`, further
operations may come, and `done` is the return of the innermost callback. So nesting is a list, and
each step is one of the specifications of `PhysMem/Spec.lean` used at that moment. -/

/-- `alloc_frame` takes frames from the head of the free list. -/
theorem allocFrame_takes {m : Machine} (H : PInv m L) :
    wp allocFrame (fun _ m' => ∃ k, Chain m'.mem m'.firstFree (L.free.drop k)) (fun _ _ => True) m := by
  unfold allocFrame
  simp only [wp_bind, wp_pure]
  refine wp_mono (unsafeAllocFrame_spec H) (fun p s₁ hpost => ?_) fun _ _ _ => trivial
  obtain ⟨H₁, T⟩ := hpost
  have hraw : (L.take p).own p = .raw := Function.update_self ..
  refine wp_mono (incref_spec H₁ (p := p) (by rw [hraw]; simp) (by rw [hraw]; simp))
    (fun _ s₂ hpost => ?_) fun _ _ _ => trivial
  obtain ⟨H₂, _, _⟩ := hpost
  have hchain := H₂.chain
  have hfree : ∃ k, ((L.take p).incref s₁ p).free = L.free.drop k := by
    unfold Ledger.incref Ledger.inc Ledger.ensure
    split
    · exact ⟨1, List.drop_one.symm⟩
    · refine ⟨2, ?_⟩
      show L.free.tail.tail = _
      rw [← List.drop_one, ← List.drop_one, List.drop_drop]
  obtain ⟨k, hk⟩ := hfree
  rw [hk] at hchain
  exact ⟨k, hchain⟩

/-- A step that leaves the callbacks alone and changes the count of one frame. -/
theorem own_update {m : Machine} {n : Nat} {o : Own} (hp : n = k + 1) (ho : o = .counted k) :
    own { s with machine := m, count := Function.update s.count p n } =
      Function.update s.own p o := by
  subst hp ho
  funext q
  by_cases hq : q = p
  · subst hq
    rw [Function.update_self]
    exact own_counted (Function.update_self ..)
  · rw [Function.update_of_ne hq]
    unfold own
    simp only [Function.update_of_ne hq]

/-- The last reference is gone, and the callback is called. -/
theorem own_last {m : Machine} {n : Nat} (hn : n = 0) :
    own { machine := m, count := Function.update s.count p n, running := p :: s.running } =
      Function.update s.own p .dying := by
  subst hn
  funext q
  by_cases hq : q = p
  · subst hq
    rw [Function.update_self, own_zero (Function.update_self ..), if_pos List.mem_cons_self]
  · have hmem : q ∈ p :: s.running ↔ q ∈ s.running := by
      rw [List.mem_cons]
      exact or_iff_right hq
    rw [Function.update_of_ne hq]
    unfold own
    simp only [Function.update_of_ne hq, hmem]

/-- The callback has returned. -/
theorem own_done {m : Machine} {rest : List Word} (hrun : s.running = p :: rest)
    (hnodup : s.running.Nodup) (hzero : s.count p = 0) :
    own { s with machine := m, running := rest } = Function.update s.own p .none := by
  rw [hrun, List.nodup_cons] at hnodup
  funext q
  by_cases hq : q = p
  · subst hq
    rw [Function.update_self]
    exact (@own_zero { s with machine := m, running := rest } q hzero).trans (if_neg hnodup.1)
  · have hmem : q ∈ s.running ↔ q ∈ rest := by
      rw [hrun, List.mem_cons]
      exact or_iff_right hq
    rw [Function.update_of_ne hq]
    unfold own
    simp only [hmem]

namespace Backs

theorem alloc (B : Backs s L) (h : s.step .alloc = some t) :
    (∃ L', Backs t L') ∧ s.Does .alloc t := by
  dsimp only [step] at h
  cases hx : allocFrame s.machine with
  | error e m =>
    rw [hx] at h
    cases h
  | ok p m =>
    rw [hx] at h
    obtain rfl := Option.some.inj h
    obtain ⟨L', al⟩ := wp_ok (allocFrame_spec B.inv) hx
    obtain ⟨k, htakes⟩ := wp_ok (allocFrame_takes B.inv) hx
    have hfresh : ¬s.Used p := B.none_iff.mp al.fresh
    refine ⟨⟨L', al.inv, ?_, B.running.1, fun q hq => ?_⟩, rfl, ⟨p, hfresh, rfl⟩, L.free, k,
      B.freeList, htakes⟩
    · rw [al.own, B.owners]
      exact (own_update rfl rfl).symm
    · have hqp : q ≠ p := by
        rintro rfl
        exact hfresh (.inr hq)
      exact (Function.update_of_ne hqp ..).trans (B.running.2 q hq)

theorem incref (B : Backs s L) (h : s.step (.incref p) = some t) :
    (∃ L', Backs t L') ∧ s.Does (.incref p) t := by
  dsimp only [step] at h
  split at h
  case isFalse => cases h
  rename_i hpos
  obtain ⟨k, hk⟩ := Nat.exists_eq_succ_of_ne_zero (Nat.ne_of_gt hpos)
  have hown : L.own p = .counted k := by
    rw [B.owners]
    exact own_counted hk
  cases hx : PhysMem.incref p s.machine with
  | error e m =>
    rw [hx] at h
    cases h
  | ok u m =>
    rw [hx] at h
    obtain rfl := Option.some.inj h
    obtain ⟨hinv, -, -⟩ := wp_ok (incref_counted_spec B.inv hown) hx
    refine ⟨⟨L.inc p, hinv, ?_, B.running.1, fun q hq => ?_⟩, rfl, rfl, L.free, B.freeList,
      hinv.chain⟩
    · rw [Ledger.inc_own, hown, B.owners]
      exact (own_update (congrArg (· + 1) hk) rfl).symm
    · have hqp : q ≠ p := by
        rintro rfl
        have hzero := B.running.2 q hq
        omega
      exact (Function.update_of_ne hqp ..).trans (B.running.2 q hq)

theorem fill {words : Nat → Word} (B : Backs s L) (h : s.step (.fill p words) = some t) :
    (∃ L', Backs t L') ∧ s.Does (.fill p words) t := by
  dsimp only [step] at h
  split at h
  case isFalse => cases h
  rename_i hpos
  obtain rfl := Option.some.inj h
  have hne : L.own p ≠ .none := fun h0 => B.none_iff.mp h0 (.inl hpos)
  have hinv := B.inv.store_owned hne words
  exact ⟨⟨L, hinv, B.owners, B.running⟩, rfl, rfl, L.free, B.freeList, hinv.chain⟩

theorem decref (B : Backs s L) (h : s.step (.decref p) = some t) :
    (∃ L', Backs t L') ∧ s.Does (.decref p) t := by
  dsimp only [step] at h
  split at h
  case isFalse => cases h
  rename_i hpos
  obtain ⟨k, hk⟩ := Nat.exists_eq_succ_of_ne_zero (Nat.ne_of_gt hpos)
  have hown : L.own p = .counted k := by
    rw [B.owners]
    exact own_counted hk
  have hnot : p ∉ s.running := fun hp => absurd (B.running.2 p hp) (by omega)
  cases hx : subRef p s.machine with
  | error e m =>
    rw [hx] at h
    cases h
  | ok last m =>
    rw [hx] at h
    obtain rfl := Option.some.inj h
    obtain ⟨rfl, hinv, -, -⟩ := wp_ok (subRef_spec B.inv hown) hx
    have hcount : Function.update s.count p (s.count p - 1) p = k := by
      rw [Function.update_self]
      omega
    cases k with
    | succ k =>
      refine ⟨⟨L.dec p, hinv, ?_, B.running.1, fun q hq => ?_⟩, rfl, ?_, L.free, B.freeList,
        hinv.chain⟩
      · rw [Ledger.dec_own, hown, B.owners]
        exact (own_update (by omega) rfl).symm
      · have hqp : q ≠ p := by
          rintro rfl
          exact hnot hq
        exact (Function.update_of_ne hqp ..).trans (B.running.2 q hq)
      · simp only [hcount]
        rfl
    | zero =>
      refine ⟨⟨L.dec p, hinv, ?_, List.nodup_cons.mpr ⟨hnot, B.running.1⟩, fun q hq => ?_⟩, rfl, ?_,
        L.free, B.freeList, hinv.chain⟩
      · rw [Ledger.dec_own, hown, B.owners]
        exact (own_last (by omega)).symm
      · rcases List.mem_cons.mp hq with rfl | hin
        · exact hcount
        · have hqp : q ≠ p := by
            rintro rfl
            exact hnot hin
          exact (Function.update_of_ne hqp ..).trans (B.running.2 q hin)
      · simp only [hcount]
        rfl

theorem done (B : Backs s L) (h : s.step .done = some t) :
    (∃ L', Backs t L') ∧ s.Does .done t := by
  dsimp only [step] at h
  cases hrun : s.running with
  | nil =>
    rw [hrun] at h
    cases h
  | cons p rest =>
    rw [hrun] at h
    simp only at h
    have hzero := B.running.2 p (hrun ▸ List.mem_cons_self)
    have hdying : L.own p = .dying := by
      rw [B.owners, own_zero hzero, if_pos (hrun ▸ List.mem_cons_self)]
    obtain ⟨tb, htable⟩ := B.inv.table_of_live (p := p) (by rw [hdying]; rfl)
    cases hx : release p s.machine with
    | error e m =>
      rw [hx] at h
      cases h
    | ok u m =>
      rw [hx] at h
      obtain rfl := Option.some.inj h
      obtain ⟨hinv, -, hregs, -⟩ := wp_ok (release_spec B.inv hdying) hx
      have hnodup := B.running.1
      have B' : Backs { s with machine := m, running := rest } (L.release s.machine.start p) := by
        refine ⟨hinv, ?_, (List.nodup_cons.mp (hrun ▸ hnodup)).2, fun q hq => ?_⟩
        · rw [Ledger.release_own, B.owners]
          exact (own_done hrun hnodup hzero).symm
        · exact B.running.2 q (hrun ▸ List.mem_cons_of_mem p hq)
      refine ⟨⟨_, B'⟩, rfl, p, hrun, L.free, B.freeList, ?_⟩
      have hpop := B'.pop_eq (ridx s.machine.start p)
      rw [Ledger.release_own] at hpop
      simp only [hregs.start] at hpop
      have hfree : (L.release s.machine.start p).free =
          if used { s with machine := m, running := rest } (ridx s.machine.start p) = 0
            then s.table (ridx s.machine.start p) :: p :: L.free else p :: L.free := by
        rw [(B.table_iff.mp htable).2, ← hpop]
        unfold Ledger.release
        simp only [htable]
        split <;> rfl
      rw [← hfree]
      exact B'.freeList

theorem step (B : Backs s L) {op : CountOp} (h : s.step op = some t) :
    (∃ L', Backs t L') ∧ s.Does op t := by
  cases op with
  | alloc => exact B.alloc h
  | incref p => exact B.incref h
  | decref p => exact B.decref h
  | done => exact B.done h
  | fill p words => exact B.fill h

theorem calls (B : Backs s L) {f : Word → K Unit} (h : s.step (.decref p) = some t) :
    Calls s t p f := by
  dsimp only [Counting.step] at h
  split at h
  case isFalse => cases h
  rename_i hpos
  obtain ⟨k, hk⟩ := Nat.exists_eq_succ_of_ne_zero (Nat.ne_of_gt hpos)
  have hown : L.own p = .counted k := by
    rw [B.owners]
    exact own_counted hk
  cases hx : subRef p s.machine with
  | error e m =>
    rw [hx] at h
    cases h
  | ok last m =>
    rw [hx] at h
    obtain rfl := Option.some.inj h
    obtain ⟨rfl, -, -, -⟩ := wp_ok (subRef_spec B.inv hown) hx
    have hcount : Function.update s.count p (s.count p - 1) p = k := by
      rw [Function.update_self]
      omega
    unfold Calls
    simp only [hcount]
    cases k with
    | succ k =>
      rw [if_neg (Nat.succ_ne_zero k)]
      simp only [PhysMem.decref, bind, EStateM.bind, hx]
      rfl
    | zero =>
      rw [if_pos rfl]
      intro u w hf hu hdone
      have hrun : u.running = p :: s.running := hu
      dsimp only [Counting.step] at hdone
      rw [hrun] at hdone
      simp only at hdone
      cases hrel : release p u.machine with
      | error e m' =>
        rw [hrel] at hdone
        cases hdone
      | ok v m' =>
        rw [hrel] at hdone
        obtain rfl := Option.some.inj hdone
        simp only [PhysMem.decref, bind, EStateM.bind, hx]
        simp only [decide_true, if_true, EStateM.bind, hf, hrel]

end Backs

/-! ## Every run -/

theorem runs_backs {ops : List CountOp} (B : Backs s L) (hr : runs step s ops = some t) :
    ∃ L', Backs t L' :=
  runs_inv (fun s => ∃ L, Backs s L) (fun _ _ _ ⟨_, B⟩ _ h => (B.step h).1) ⟨L, B⟩
    (.of_forall (fun _ _ => trivial) ops s) hr

end Counting

/-- In every reachable state the two levels hold the counts and every frame has one place; every step
from there does to the counts, the callbacks and the free list what it is for; and a `decref` calls
back exactly if the count comes to zero. -/
theorem counter_per_frame {start size : Word} {m m' : Machine} (hs : Aligned start)
    (hz : Aligned size) (hpos : start ≠ 0#32) (hfit : start.toNat + size.toNat < 2 ^ 32)
    (hinit : PhysMem.init start size m = .ok () m') {ops : List CountOp} {s : Counting}
    (hr : runs Counting.step ⟨m', fun _ => 0, []⟩ ops = some s) :
    s.Exact ∧ (∀ op t, s.step op = some t → s.Does op t) ∧
      ∀ p f t, s.step (.decref p) = some t → s.Calls t p f := by
  have hstart : 0 < start.toNat := Nat.pos_of_ne_zero fun h0 => hpos (BitVec.toNat_inj.mp h0)
  obtain ⟨-, -, -, hinv⟩ := wp_ok (init_spec hs hz hstart hfit) hinit
  obtain ⟨L, B⟩ := Counting.runs_backs
    (L := ⟨fun _ => .none, [], fun _ => Option.none⟩) ⟨hinv, rfl, List.nodup_nil,
      fun _ h => absurd h List.not_mem_nil⟩ hr
  exact ⟨B.exact, fun op t h => (B.step h).2, fun p f t h => B.calls h⟩

/-- 8 frames from 4 MB on. -/
def bootPool : Machine where
  mem _ _ := 0xffffffff#32
  firstFree := 0#32
  avail := 0x400000#32
  limit := 0x408000#32
  start := 0x400000#32
  refs _ := 0#32
  kpd := 0#32
  cr3 := 0#32
  tlb := []

/-- Two frames of a chunk, the second of which goes in the callback of the first. -/
theorem counter_per_frame_nested :
    runs Counting.step ⟨bootPool, fun _ => 0, []⟩ [.alloc, .alloc, .incref 0x400000#32,
      .decref 0x400000#32, .decref 0x400000#32, .decref 0x402000#32, .done, .done] ≠ none ∧
    ∀ s, runs Counting.step ⟨bootPool, fun _ => 0, []⟩ [.alloc, .alloc, .incref 0x400000#32,
      .decref 0x400000#32, .decref 0x400000#32, .decref 0x402000#32, .done, .done] = some s →
      s.Exact := by
  refine ⟨by decide, fun s hr => ?_⟩
  have hinit : PhysMem.init 0x400000#32 0x8000#32 bootPool = .ok () bootPool := rfl
  exact (counter_per_frame (by decide) (by decide) (by decide) (by decide) hinit hr).1

end OsKernel.PhysMem
