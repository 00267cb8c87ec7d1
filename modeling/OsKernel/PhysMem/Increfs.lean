import OsKernel.PhysMem.Concurrent

/-!
# A step of `incref`

The invariant under each step up to the return of an `incref`. The section of `incref`
installs a table for a chunk that has none; from its load on, the call relies on that table.

There is a lemma for each place where the call can be, and two where an `incref` counts: the
first reference to a frame makes an entry one, and obliges the call to add one to the word of
the chunk; a further one only raises the entry. Between the entry and the word the chunk's
books are out by one, and `adding` is that one.

The table is what takes care. `relies` says that the call will access the table whose address
it has loaded, so the chunk must not lose it. That it does not is the condition on the
`decref`s (`StepOk`); what the `incref` gives back for it is that the chunk's count is
positive as soon as its own addition is done.
-/

set_option autoImplicit false

namespace OsKernel.PhysMem

open Lib Lib.Prog K

/-! ## The allocator -/

section alloc

variable {m : Machine} {p : Word}

theorem unsafeAllocFrame_keeps : wp unsafeAllocFrame (fun p m' => m'.start = m.start ∧
    m'.refs = m.refs ∧ ∀ q, q ≠ p → m'.mem q = m.mem q) (fun _ _ => True) m := by
  have hmem : ∀ {p q : Word}, q ≠ p → Function.update m.mem p (fun _ => 0#32) q = m.mem q :=
    fun h => Function.update_of_ne h ..
  unfold unsafeAllocFrame
  simp only [wp_bind, wp_get, wp_ite, wp_throw, wp_set, wp_pure, wp_assert, wp_bzero]
  split
  · split
    · exact ⟨trivial, trivial, fun q hq => hmem hq⟩
    · trivial
  · split
    · trivial
    · split
      · exact ⟨trivial, trivial, fun q hq => hmem hq⟩
      · trivial

theorem deallocFrame_keeps : wp (deallocFrame p) (fun _ m' => m'.start = m.start ∧
    m'.refs = m.refs ∧ ∀ q, q ≠ p → m'.mem q = m.mem q) (fun _ _ => True) m := by
  unfold deallocFrame
  simp only [wp_bind, wp_assert, wp_modify]
  split
  · exact ⟨trivial, trivial, fun q hq => Function.update_of_ne hq ..⟩
  · trivial

/-- The section of `incref` for a chunk that counts nothing. -/
theorem ensureTable_absent {Q : Word → Machine → Prop}
    (h : m.refs (ridx m.start p) &&& 0xfff#32 = 0#32)
    (hQ : wp unsafeAllocFrame Q (fun _ _ => True) m) :
    wp (ensureTable p) (fun _ m' => ∃ a m₁, Q a m₁ ∧
      m' = { m₁ with refs := Function.update m₁.refs (ridx m.start p) a }) (fun _ _ => True) m := by
  unfold ensureTable
  simp only [wp_bind, wp_get, wp_ite]
  rw [if_pos h]
  exact wp_mono hQ (fun a m₁ hq => ⟨a, m₁, hq, rfl⟩) (fun _ _ _ => trivial)

/-- And for one that has a count. -/
theorem ensureTable_present (h : m.refs (ridx m.start p) &&& 0xfff#32 ≠ 0#32) :
    wp (ensureTable p) (fun _ m' => m' = m) (fun _ _ => True) m := by
  unfold ensureTable
  simp only [wp_bind, wp_get, wp_ite]
  rw [if_neg h]
  rfl

end alloc

/-! ## The count in a word -/

theorem low_succ {w : Word} (h : w &&& 0xfff#32 ≠ 0xfff#32) :
    (w + 1#32).toNat = w.toNat + 1 ∧ (w + 1#32).toNat % 4096 = w.toNat % 4096 + 1 := by
  have hlt := w.isLt
  have hlow : w.toNat % 4096 ≠ 4095 := fun h' => h (BitVec.toNat_inj.mp ((toNat_and_low w).trans h'))
  have hone : (1#32).toNat = 1 := rfl
  rw [BitVec.toNat_add, hone]
  omega

theorem low_pred {w : Word} (h : 0 < w.toNat % 4096) :
    (w - 1#32).toNat + 1 = w.toNat ∧ (w - 1#32).toNat % 4096 + 1 = w.toNat % 4096 := by
  have hlt := w.isLt
  have hone : (1#32).toNat = 1 := rfl
  rw [BitVec.toNat_sub, hone]
  omega

/-! ## The steps

One lemma for each step of `incref` (and of `alloc_frame`, which calls it), in the order of the
code: a call begins, the section installs a table or finds one, the entry is counted, the word of
the chunk is counted. Every lemma takes the roles and the sums apart, says what changes for the
frame of the call and for its chunk, and puts them together again.

The second count of the source, of the chunk's word, belongs to the call that made an entry one
(`countedFirst`); between the two the call has one to add in hand, and `Sums` counts that too, so
each step balances by itself. -/

section steps

variable {T : Type} [DecidableEq T] [Fintype T] {lo hi : Nat} {s : Cores T} {t : T} {p a rtb : Word}
  {role : Word → Role T} {fresh : Bool}

def Inv (lo hi : Nat) (s : Cores T) : Prop := ∃ role, Roles lo hi s role ∧ Sums lo hi s

/-- A holder's call begins. -/
theorem begun (R : Roles lo hi s role) (S : Sums lo hi s) (hidle : s.pc t = .idle)
    (hspare : 0 < s.spare p) {s' : Cores T} {v : Pc} (hv : v = .enter p false ∨ v = .read p)
    (hpool : s'.pool = s.pool) (hpc : s'.pc = Function.update s.pc t v) (hsame : s'.table = s.table)
    (hoff : ∀ q, q ≠ p → s'.spare q = s.spare q ∧ s'.borrowed q = s.borrowed q)
    (hincrefs : s'.increfs = s.increfs) (hdecrefs : s'.decrefs = s.decrefs)
    (hweight : s'.spare p + v.weight p = s.spare p) (htied : s'.spare p + v.tied p = s.spare p)
    (hborrowed : s'.borrowed p = s.borrowed p + v.borrows p)
    (hlent : 0 < s'.borrowed p → 0 < s'.spare p) : Inv lo hi s' := by
  have hm : s'.machine = s.machine := congrArg Pool.machine hpool
  have D : Does s s' t p v :=
    { pc := hpc
      before := by
        rw [hidle]
        exact fun q h => by cases h
      after := by
        rcases hv with rfl | rfl <;> exact fun q h => (Option.some.inj h).symm
      start := by rw [hm]
      table := fun _ _ => by rw [hsame]
      refs := fun _ _ => by rw [hm]
      mem := fun _ _ _ _ => by rw [hm]
      spare := fun q hq => (hoff q hq).1
      borrowed := fun q hq => (hoff q hq).2
      increfs := fun _ _ => by rw [hincrefs]
      decrefs := fun _ _ => by rw [hdecrefs] }
  have hon : v.on = some p := by rcases hv with rfl | rfl <;> rfl
  refine ⟨role, R.keep_simple (by rw [hpool]; exact R.parts) (by rw [hpool]) hsame (by rw [hm]) hpc
    (fun q => ?_) (fun q hq => ?_) (fun q b h => ?_) (fun q b => ?_), D.sums_quiet S (by rw [hsame])
    (by rw [hm]) (fun _ _ => by rw [hm]) (fun c => ?_) (fun c => ?_) (fun c h => ?_) (fun q b h => ?_)
    ?_ ?_ ?_ hlent⟩
  · by_cases hq : q = p
    · rw [hq]
      exact iff_of_true (.inr hon) (.inl hspare)
    · have hne : v.on ≠ some q := fun h => hq (Option.some.inj (h.symm.trans hon))
      rw [(hoff q hq).1, hidle]
      exact or_congr_right (iff_of_false hne fun h => by cases h)
  · rcases hv with rfl | rfl <;> cases hq
  · rw [hidle] at h
    cases h
  · rcases hv with rfl | rfl <;> exact fun h => by cases h
  · rw [hidle]
    rcases hv with rfl | rfl <;> rfl
  · rw [hidle]
    rcases hv with rfl | rfl <;> rfl
  · rw [hidle] at h
    exact h.elim
  · rcases hv with rfl | rfl <;> cases h
  · rw [hidle, hweight]
    rfl
  · rw [hidle, htied, hincrefs, hdecrefs]
    rfl
  · rw [hidle, hborrowed]
    rfl

/-- `alloc_frame` has a frame. -/
theorem allocated (R : Roles lo hi s role) (S : Sums lo hi s) (hidle : s.pc t = .idle) {m : Machine}
    (F : Parts.Fresh lo hi s.pool p m) (hstart : m.start = s.machine.start)
    (hrefs : m.refs = s.machine.refs) (hmem : ∀ q, q ≠ p → m.mem q = s.machine.mem q) :
    Inv lo hi (({ s with pool := s.pool.setLive m p true } : Cores T).setPc t (.enter p true)) := by
  have hfree := R.free_of_not_live F.notLive
  have D : Does s (({ s with pool := s.pool.setLive m p true } : Cores T).setPc t (.enter p true))
      t p (.enter p true) :=
    { pc := rfl
      before := by
        rw [hidle]
        exact fun q h => by cases h
      after := fun q h => (Option.some.inj h).symm
      start := hstart
      table := fun _ _ => rfl
      refs := fun c _ => congrFun hrefs c
      mem := fun c b _ hb => hmem b (R.table_ne_free hfree hb)
      spare := fun _ _ => rfl
      borrowed := fun _ _ => rfl
      increfs := fun _ _ => rfl
      decrefs := fun _ _ => rfl }
  refine ⟨_, R.change (x := p) (r := .client) F.parts hstart rfl rfl rfl
    (by simp) (fun _ _ _ => Iff.rfl) (fun c => ?_) (fun q hq => ?_) (fun _ => .inr (R.off_free hfree))
    ?_ (fun q b _ => ?_) (fun u => ?_) (fun q hq => .inr ?_),
    D.sums_quiet S rfl (congrFun hrefs _) (fun b hb => hmem b (R.table_ne_free hfree hb)) (fun c => ?_)
    (fun c => ?_) (fun c h => ?_) (fun q b h => by cases h) ?_ ?_ ?_ (S.lent p)⟩
  · exact iff_of_false (fun h => R.table_ne_free hfree h rfl) fun h => by cases h
  · rw [hidle]
    exact iff_of_false (fun h => hq (Option.some.inj h).symm) fun h => by cases h
  · refine iff_of_true rfl (.inr ⟨t, ?_⟩)
    show (Function.update s.pc t (Pc.enter p true) t).on = some p
    rw [Function.update_self]
    rfl
  · rw [hidle]
    exact iff_of_false (fun h => by cases h) fun h => by cases h
  · exact iff_of_false (fun h => by cases h) (nobody_frees D.pc (fun q h => by cases h)
      (fun u q _ => R.not_doomed_free hfree u q) u)
  · obtain rfl : p = q := Option.some.inj hq
    exact ⟨R.spare_free hfree, R.off_free hfree⟩
  · rw [hidle]
    rfl
  · rw [hidle]
    rfl
  · rw [hidle] at h
    exact h.elim
  · rw [hidle]
    rfl
  · rw [hidle]
    rfl
  · rw [hidle]
    simp [Pc.borrows, Cores.setPc]

/-- A call goes on, and nothing else changes. -/
theorem moved (R : Roles lo hi s role) (S : Sums lo hi s) {v : Pc} (hon : (s.pc t).on = some p)
    (hv : v.on = some p) (hsole : v.sole = (s.pc t).sole)
    (hweight : v.weight p = (s.pc t).weight p) (htied : v.tied p = (s.pc t).tied p)
    (hborrows : v.borrows p = (s.pc t).borrows p)
    (hadd : ∀ c, v.adding s.machine.start c = (s.pc t).adding s.machine.start c)
    (hdrop : ∀ c, v.dropping s.machine.start c = (s.pc t).dropping s.machine.start c)
    (hrelies : ∀ c, (s.pc t).relies s.machine.start c → v.relies s.machine.start c)
    (huses : ∀ q a, v.uses = some (q, a) → s.table (s.chunk q) = some a) :
    Inv lo hi (s.setPc t v) := by
  have about : ∀ {w : Pc}, w.on = some p → w.About p := fun hw q hq =>
    Option.some.inj (hq.symm.trans (Pc.frame_of_on hw))
  have D : Does s (s.setPc t v) t p v :=
    { pc := rfl
      before := about hon
      after := about hv
      start := rfl
      table := fun _ _ => rfl
      refs := fun _ _ => rfl
      mem := fun _ _ _ _ => rfl
      spare := fun _ _ => rfl
      borrowed := fun _ _ => rfl
      increfs := fun _ _ => rfl
      decrefs := fun _ _ => rfl }
  refine ⟨role, R.keep_simple R.parts rfl rfl rfl rfl (fun q => ?_) (fun q hq => ?_) (fun q b h => ?_)
    (fun q b h => ?_), D.sums_quiet S rfl rfl (fun _ _ => rfl) hadd hdrop hrelies huses ?_ ?_ ?_
    (S.lent p)⟩
  · rw [hon, hv]
    exact Iff.rfl
  · rw [hsole] at hq
    exact R.alone hq
  · rw [h] at hon
    cases hon
  · rw [h] at hv
    cases hv
  · rw [hweight]
    rfl
  · rw [htied]
    rfl
  · rw [hborrows]
    rfl

/-- The section of `incref` installs a table. -/
theorem installed (R : Roles lo hi s role) (S : Sums lo hi s) (hpc : s.pc t = .enter p fresh)
    (hnone : s.table (s.chunk p) = none) {m : Machine} (F : Parts.Fresh lo hi s.pool a m)
    (hstart : m.start = s.machine.start) (hrefs : m.refs = s.machine.refs)
    (hmem : ∀ q, q ≠ a → m.mem q = s.machine.mem q) :
    Inv lo hi (({ s with
      pool := s.pool.setLive { m with refs := Function.update m.refs (s.chunk p) a } a true
      table := Function.update s.table (s.chunk p) (some a) } : Cores T).setPc t (.load p fresh)) := by
  have hfree := R.free_of_not_live F.notLive
  have hpa : p ≠ a := by
    rintro rfl
    exact R.off_free hfree t (by rw [hpc]; rfl)
  have D : Does s (({ s with
      pool := s.pool.setLive { m with refs := Function.update m.refs (s.chunk p) a } a true
      table := Function.update s.table (s.chunk p) (some a) } : Cores T).setPc t (.load p fresh))
      t p (.load p fresh) :=
    { pc := rfl
      before := by
        rw [hpc]
        exact fun q h => (Option.some.inj h).symm
      after := fun q h => (Option.some.inj h).symm
      start := hstart
      table := fun c hc => Function.update_of_ne hc ..
      refs := fun c hc => (Function.update_of_ne hc ..).trans (congrFun hrefs c)
      mem := fun c b _ hb => hmem b (R.table_ne_free hfree hb)
      spare := fun _ _ => rfl
      borrowed := fun _ _ => rfl
      increfs := fun _ _ => rfl
      decrefs := fun _ _ => rfl }
  -- without a table nothing is counted in the chunk, and nothing is due
  have B := (S.chunk _).bare hnone
  have hdue : ∀ q, Cores.due (({ s with
      pool := s.pool.setLive { m with refs := Function.update m.refs (s.chunk p) a } a true
      table := Function.update s.table (s.chunk p) (some a) } : Cores T).setPc t (.load p fresh)) q =
      s.due q := by
    intro q
    unfold Cores.due
    rw [D.pc, total_keep (by rw [hpc]; rfl)]
    rfl
  have hzero : m.mem a = fun _ => 0#32 := funext F.zero
  refine ⟨_, R.change (x := a) (r := .table (s.chunk p)) ?_ hstart rfl rfl rfl (by simp)
    (fun c b hb => ?_) (fun c => ?_) (fun q _ => ?_) (fun h => absurd (Option.some.inj h) hpa)
    ?_ (fun q b _ => ?_) (fun u => ?_) (fun q hq => .inl ?_),
    D.sums S (Tabled.chunk (a := a) ⟨?_, ?_, fun q hq hc => ?_, fun r _ hne => ?_⟩ ?_)
      (fun b _ => .inr ⟨t, ?_⟩) (fun u q b hu hc => ?_) ?_ ?_ (S.lent p)⟩
  -- that each frame still has one role
  · obtain ⟨used, free, P⟩ := F.parts
    exact ⟨used, free, { P with }⟩
  · show Function.update s.table (s.chunk p) (some a) c = some b ↔ _
    by_cases hc : c = s.chunk p
    · rw [hc, Function.update_self, hnone]
      exact iff_of_false (fun h => hb (Option.some.inj h).symm) fun h => by cases h
    · rw [Function.update_of_ne hc]
  · show Function.update s.table (s.chunk p) (some a) c = some a ↔ _
    by_cases hc : c = s.chunk p
    · rw [hc, Function.update_self]
      exact iff_of_true rfl rfl
    · rw [Function.update_of_ne hc]
      exact iff_of_false (fun h => R.table_ne_free hfree h rfl) fun h => hc
        (by injection h with h; exact h.symm)
  · rw [hpc]
    exact Iff.rfl
  · exact iff_of_false (fun h => by cases h) (nobody_on D.pc (R.spare_free hfree)
      (fun h => hpa (Option.some.inj h)) fun u _ => R.off_free hfree u)
  · rw [hpc]
    exact iff_of_false (fun h => by cases h) fun h => by cases h
  · exact iff_of_false (fun h => by cases h) (nobody_frees D.pc (fun q h => by cases h)
      (fun u q _ => R.not_doomed_free hfree u q) u)
  · rw [hpc]
    exact hq
  -- the word of the chunk, and what it counts
  · have ha : a.toNat % 4096 = 0 := F.range.1
    show (Function.update m.refs (s.chunk p) a (s.chunk p)).toNat =
      a.toNat + (Function.update m.refs (s.chunk p) a (s.chunk p)).toNat % 4096
    rw [Function.update_self]
    omega
  · have ha : a.toNat % 4096 = 0 := F.range.1
    have hadd := D.total_at (Pc.adding s.machine.start (s.chunk p))
    have hdrop := D.total_at (Pc.dropping s.machine.start (s.chunk p))
    rw [hpc, B.adding] at hadd
    rw [hpc, B.dropping] at hdrop
    show (Function.update m.refs (s.chunk p) a (s.chunk p)).toNat % 4096 + _ = nonzero (m.mem a) + _
    rw [Function.update_self, hzero, nonzero_zero, D.start]
    simp only [Pc.adding, Pc.dropping] at hadd hdrop
    omega
  · rw [chunk_congr D.start] at hc
    rw [hdue, B.due q hq hc]
    show (rd16 (m.mem a) _).toNat = 0
    rw [hzero, rd16_zero]
    rfl
  · refine absurd ?_ hne
    show rd16 (m.mem a) r = 0#16
    rw [hzero, rd16_zero]
  · exact Function.update_self ..
  · rw [D.pc, Function.update_self]
    exact rfl
  · rw [D.pc] at hu
    by_cases hut : u = t
    · rw [hut, Function.update_self] at hu
      cases hu
    · rw [Function.update_of_ne hut] at hu
      have hold := S.uses u q b hu
      rw [hc, hnone] at hold
      cases hold
  · rw [hpc]
    rfl
  · rw [hpc]
    rfl

omit [DecidableEq T] in
/-- A table with an entry that is not zero is not about to be forgotten. -/
theorem Tabled.kept {c : Nat} (B : Tabled lo hi s c a) {r : Nat} (hr : r < 2048)
    (h : rd16 (s.machine.mem a) r ≠ 0#16) :
    0 < s.count c ∨ ∃ u, (s.pc u).relies s.machine.start c := by
  have hpos := nonzero_pos_iff.mpr ⟨r, hr, h⟩
  have hcount := B.count
  by_cases h0 : 0 < s.count c
  · exact .inl h0
  · refine .inr ?_
    by_contra hno
    have hadd : total (Pc.adding s.machine.start c) s.pc = 0 := by
      refine total_eq_zero_iff.mpr fun u => ?_
      cases hu : s.pc u with
      | addFetch q fresh => exact if_neg fun hq => hno ⟨u, by rw [hu]; exact hq⟩
      | _ => rfl
    omega

omit [Fintype T] in
/-- The entry of a call's frame is written. -/
theorem Does.entry (R : Roles lo hi s role) (hon : (s.pc t).on = some p)
    (htable : s.table (s.chunk p) = some rtb) {s' : Cores T} {v : Pc} {x : BitVec 16}
    (hv : v.About p) (hpool : s'.pool = (s.setEntry rtb (s.slot p) x).pool)
    (hpc : s'.pc = Function.update s.pc t v) (hsame : s'.table = s.table)
    (hspare : ∀ q, q ≠ p → s'.spare q = s.spare q)
    (hborrowed : ∀ q, q ≠ p → s'.borrowed q = s.borrowed q)
    (hincrefs : ∀ q, q ≠ p → s'.increfs q = s.increfs q)
    (hdecrefs : ∀ q, q ≠ p → s'.decrefs q = s.decrefs q) : Does s s' t p v := by
  have hm : s'.machine = (s.setEntry rtb (s.slot p) x).machine := congrArg Pool.machine hpool
  exact {
    pc := hpc
    before := fun q hq => Option.some.inj (hq.symm.trans (Pc.frame_of_on hon))
    after := hv
    start := by rw [hm]; rfl
    table := fun c _ => by rw [hsame]
    refs := fun c _ => by rw [hm]; rfl
    mem := fun c b hc hb => by
      rw [hm]
      refine Function.update_of_ne ?_ _ _
      rintro rfl
      have h1 := (R.table _ _).mp hb
      have h2 := (R.table _ _).mp htable
      rw [h1] at h2
      injection h2 with h2
      exact hc h2
    spare := hspare
    borrowed := hborrowed
    increfs := hincrefs
    decrefs := hdecrefs }

omit [DecidableEq T] [Fintype T] in
/-- The table is a frame in use. -/
theorem Roles.wrote (R : Roles lo hi s role) (htable : s.table (s.chunk p) = some rtb) {r : Nat}
    {x : BitVec 16} : ∃ used free, Parts lo hi used free (s.setEntry rtb r x).pool := by
  obtain ⟨used, free, P⟩ := R.parts
  exact ⟨used, free, P.fill (R.live_of_table htable) _⟩

omit [DecidableEq T] in
/-- The `incref` of a holder relies on a reference. -/
theorem Sums.holder (S : Sums lo hi s) (h : (s.pc t).borrows p = 1) :
    0 < s.borrowed p ∧ 0 < s.spare p := by
  have hle := le_total (f := Pc.borrows p) (x := s.pc) t
  rw [h, ← S.borrowed p] at hle
  exact ⟨hle, S.lent p hle⟩

/-- The first reference to a frame is counted. -/
theorem countedFirst (R : Roles lo hi s role) (S : Sums lo hi s)
    (hpc : s.pc t = .fetchAdd p fresh rtb) (hold : rd16 (s.machine.mem rtb) (s.slot p) = 0#16) :
    Inv lo hi ((s.setEntry rtb (s.slot p) (rd16 (s.machine.mem rtb) (s.slot p) + 1#16)).setPc t
      (.addFetch p fresh)) := by
  have hon : (s.pc t).on = some p := by rw [hpc]; rfl
  have htable : s.table (s.chunk p) = some rtb := S.uses t p rtb (by rw [hpc]; rfl)
  have B := (S.chunk _).tabled htable
  have hp := R.inRange hon
  have hdue : s.due p = 0 := by
    rw [← B.entry p hp rfl, hold]
    rfl
  -- a holder's reference would be in the entry
  have hfresh : fresh = true := by
    by_contra hf
    have hf' : fresh = false := by simpa using hf
    have hspare := (S.holder (t := t) (p := p) (by rw [hpc, hf']; simp [Pc.borrows])).2
    unfold Cores.due at hdue
    omega
  subst hfresh
  have hsole : (s.pc t).sole = some p := by rw [hpc]; rfl
  have D : Does s ((s.setEntry rtb (s.slot p) (rd16 (s.machine.mem rtb) (s.slot p) + 1#16)).setPc t
      (.addFetch p true)) t p (.addFetch p true) :=
    .entry R hon htable (fun q hq => (Option.some.inj hq).symm) rfl rfl rfl (fun _ _ => rfl)
      (fun _ _ => rfl) (fun _ _ => rfl) fun _ _ => rfl
  refine ⟨role, R.keep_simple (R.wrote htable) rfl rfl rfl rfl (fun q => ?_) (fun q hq => ?_)
    (fun q b h => ?_) (fun q b h => by cases h), D.sums S (Tabled.chunk (a := rtb) ?_ htable)
    (fun b _ => .inr ⟨t, ?_⟩) (fun u q b => D.uses_same S rfl fun _ _ h => by cases h) ?_ ?_
    (S.lent p)⟩
  · rw [hpc]
    exact Iff.rfl
  · obtain rfl : p = q := Option.some.inj hq
    exact R.alone hsole
  · rw [hpc] at h
    cases h
  · refine D.rewritten R B hp rfl (Function.update_self ..) ?_ ?_
    · have hat := D.due_moved rfl
      have hval : (rd16 (s.machine.mem rtb) (s.slot p) + 1#16).toNat = 1 := by
        rw [hold]
        rfl
      have hwas : (Pc.fetchAdd p true rtb).weight p = 0 := by simp [Pc.weight]
      have hnow : (Pc.addFetch p true).weight p = 1 := by simp [Pc.weight]
      rw [hpc, hdue, hwas, hnow] at hat
      rw [hval]
      exact hat.symm
    · rw [hpc, hold]
      simp [Pc.adding, Pc.dropping, Cores.chunk]
  · rw [D.pc, Function.update_self]
    exact rfl
  · rw [hpc]
    rfl
  · rw [hpc]
    rfl

omit [DecidableEq T] [Fintype T] in
/-- The call leaves a reference behind. -/
theorem client_counted (hon : (s.pc t).on = some p) (q : Word) :
    0 < Function.update s.spare p (s.spare p + 1) q ∨ Pc.idle.on = some q ↔
      0 < s.spare q ∨ (s.pc t).on = some q := by
  rw [hon]
  by_cases hq : q = p
  · rw [hq, Function.update_self]
    exact iff_of_true (.inl (Nat.succ_pos _)) (.inr rfl)
  · rw [Function.update_of_ne hq]
    exact or_congr_right (iff_of_false (fun h => by cases h) fun h => hq (Option.some.inj h).symm)

omit [DecidableEq T] [Fintype T] in
theorem books_counted (htied : (s.pc t).tied p = 0) :
    Function.update s.spare p (s.spare p + 1) p + 0 + s.decrefs p + s.increfs p =
      s.spare p + (s.pc t).tied p + s.decrefs p +
        Function.update s.increfs p (s.increfs p + 1) p := by
  rw [Function.update_self, Function.update_self, htied]
  omega

/-- A further reference is counted. -/
theorem countedAgain (R : Roles lo hi s role) (S : Sums lo hi s)
    (hpc : s.pc t = .fetchAdd p fresh rtb) (hold : rd16 (s.machine.mem rtb) (s.slot p) ≠ 0#16)
    (hroom : rd16 (s.machine.mem rtb) (s.slot p) ≠ 0xffff#16) :
    Inv lo hi ((s.setEntry rtb (s.slot p) (rd16 (s.machine.mem rtb) (s.slot p) + 1#16)).counted t p
      fresh) := by
  have hon : (s.pc t).on = some p := by rw [hpc]; rfl
  have htable : s.table (s.chunk p) = some rtb := S.uses t p rtb (by rw [hpc]; rfl)
  have B := (S.chunk _).tabled htable
  have hp := R.inRange hon
  have hentry := B.entry p hp rfl
  -- the first reference to a fresh frame finds a zero
  have hfresh : fresh = false := by
    by_contra hf
    have hf' : fresh = true := by simpa using hf
    have hdue := R.due_sole (t := t) (p := p) (by rw [hpc, hf']; rfl)
    rw [hpc, hf'] at hdue
    have hwas : (Pc.fetchAdd p true rtb).weight p = 0 := by simp [Pc.weight]
    rw [hwas] at hdue
    exact hold (BitVec.toNat_inj.mp (hentry.trans hdue))
  subst hfresh
  obtain ⟨hborrowed, hheld⟩ := S.holder (t := t) (p := p) (by rw [hpc]; simp [Pc.borrows])
  have hspare : Function.update s.spare p (s.spare p + 1) p = s.spare p + 1 :=
    Function.update_self ..
  have D : Does s ((s.setEntry rtb (s.slot p) (rd16 (s.machine.mem rtb) (s.slot p) + 1#16)).counted t
      p false) t p .idle :=
    .entry R hon htable (fun q hq => by cases hq) rfl rfl rfl
      (fun q hq => Function.update_of_ne hq ..) (fun q hq => Function.update_of_ne hq ..)
      (fun q hq => Function.update_of_ne hq ..) fun _ _ => rfl
  have hval : (rd16 (s.machine.mem rtb) (s.slot p) + 1#16).toNat =
      (rd16 (s.machine.mem rtb) (s.slot p)).toNat + 1 := by
    have hlt := (rd16 (s.machine.mem rtb) (s.slot p)).isLt
    have hne : (rd16 (s.machine.mem rtb) (s.slot p)).toNat ≠ 0xffff := fun h =>
      hroom (BitVec.toNat_inj.mp h)
    rw [BitVec.toNat_add]
    show (_ + 1) % _ = _
    omega
  have hnext : rd16 (s.machine.mem rtb) (s.slot p) + 1#16 ≠ 0#16 := by
    intro h0
    rw [h0] at hval
    exact absurd hval (by simp)
  -- the entry was not zero before, so the word has counted it already
  have B' : Tabled lo hi ((s.setEntry rtb (s.slot p)
      (rd16 (s.machine.mem rtb) (s.slot p) + 1#16)).counted t p false) (s.chunk p) rtb := by
    refine D.rewritten R B hp rfl (Function.update_self ..) ?_ ?_
    · have hat := D.due_at
      have hwas : (Pc.fetchAdd p false rtb).weight p = 0 := rfl
      have hnow : Pc.idle.weight p = 0 := rfl
      rw [hpc, hwas, hnow] at hat
      have hsp : Cores.spare ((s.setEntry rtb (s.slot p)
        (rd16 (s.machine.mem rtb) (s.slot p) + 1#16)).counted t p false) p = s.spare p + 1 := hspare
      rw [hsp] at hat
      rw [hval, hentry]
      omega
    · rw [hpc, if_pos hold, if_pos hnext]
      rfl
  refine ⟨role, R.keep_simple (R.wrote htable) rfl rfl rfl rfl (fun q => ?_) (fun q hq => by cases hq)
    (fun q b h => ?_) (fun q b h => by cases h), D.sums S (B'.chunk htable)
    (fun b _ => B'.kept (R.slot_lt hp) ?_) (fun u q b => D.uses_same S rfl fun _ _ h => by cases h)
    ?_ ?_ fun _ => ?_⟩
  · exact client_counted hon q
  · rw [hpc] at h
    cases h
  · show rd16 (Function.update s.machine.mem rtb _ rtb) _ ≠ _
    rw [Function.update_self, rd16_wr16, if_pos rfl]
    exact hnext
  · exact books_counted (s := s) (by rw [hpc]; rfl)
  · show Function.update s.borrowed p (s.borrowed p - 1) p + (s.pc t).borrows p = s.borrowed p + 0
    have hwas : (Pc.fetchAdd p false rtb).borrows p = 1 := by simp [Pc.borrows]
    rw [Function.update_self, hpc, hwas]
    omega
  · show 0 < Function.update s.spare p (s.spare p + 1) p
    rw [hspare]
    exact Nat.succ_pos _

omit [Fintype T] in
/-- The word of a call's chunk is written. -/
theorem Does.word {s' : Cores T} {v : Pc} {w : Word} (hbefore : (s.pc t).About p)
    (hafter : v.About p) (hm : s'.machine = (s.setWord (s.chunk p) w).machine)
    (hpc : s'.pc = Function.update s.pc t v) (htable : ∀ c, c ≠ s.chunk p → s'.table c = s.table c)
    (hspare : ∀ q, q ≠ p → s'.spare q = s.spare q)
    (hborrowed : ∀ q, q ≠ p → s'.borrowed q = s.borrowed q)
    (hincrefs : ∀ q, q ≠ p → s'.increfs q = s.increfs q)
    (hdecrefs : ∀ q, q ≠ p → s'.decrefs q = s.decrefs q) : Does s s' t p v where
  pc := hpc
  before := hbefore
  after := hafter
  start := by rw [hm]; rfl
  table := htable
  refs c hc := by
    rw [hm]
    exact Function.update_of_ne hc ..
  mem c b _ _ := by rw [hm]; rfl
  spare := hspare
  borrowed := hborrowed
  increfs := hincrefs
  decrefs := hdecrefs

omit [DecidableEq T] [Fintype T] in
/-- The frames do not depend on the words. -/
theorem Roles.reworded (R : Roles lo hi s role) {c : Nat} {w : Word} :
    ∃ used free, Parts lo hi used free (s.setWord c w).pool := by
  obtain ⟨used, free, P⟩ := R.parts
  exact ⟨used, free, { P with }⟩

/-- The entry that was the first is in the word. -/
theorem added (R : Roles lo hi s role) (S : Sums lo hi s) (hpc : s.pc t = .addFetch p fresh)
    (hroom : s.machine.refs (s.chunk p) &&& 0xfff#32 ≠ 0xfff#32) :
    Inv lo hi ((s.setWord (s.chunk p) (s.machine.refs (s.chunk p) + 1#32)).counted t p fresh) := by
  have hon : (s.pc t).on = some p := by rw [hpc]; rfl
  have hone : (Pc.addFetch p fresh).adding s.machine.start (s.chunk p) = 1 := if_pos rfl
  -- a chunk without a table has nobody who is about to add to its word
  obtain ⟨a, htable⟩ : ∃ a, s.table (s.chunk p) = some a := by
    cases ht : s.table (s.chunk p) with
    | some a => exact ⟨a, rfl⟩
    | none =>
      have hle := le_total (f := Pc.adding s.machine.start (s.chunk p)) (x := s.pc) t
      rw [((S.chunk _).bare ht).adding, hpc, hone] at hle
      exact absurd hle (by decide)
  have B := (S.chunk _).tabled htable
  obtain ⟨hword, hlow⟩ := low_succ hroom
  have hrefs : Function.update s.machine.refs (s.chunk p) (s.machine.refs (s.chunk p) + 1#32)
      (s.chunk p) = s.machine.refs (s.chunk p) + 1#32 := Function.update_self ..
  have hspare : Function.update s.spare p (s.spare p + 1) p = s.spare p + 1 :=
    Function.update_self ..
  have hcount : Cores.count ((s.setWord (s.chunk p) (s.machine.refs (s.chunk p) + 1#32)).counted t p
      fresh) (s.chunk p) = s.count (s.chunk p) + 1 := by
    show (Function.update s.machine.refs (s.chunk p) _ (s.chunk p)).toNat % 4096 = _
    rw [hrefs]
    exact hlow
  have D : Does s ((s.setWord (s.chunk p) (s.machine.refs (s.chunk p) + 1#32)).counted t p fresh) t p
      .idle :=
    .word (by rw [hpc]; exact fun q hq => (Option.some.inj hq).symm) (fun q hq => by cases hq) rfl rfl
      (fun _ _ => rfl) (fun q hq => Function.update_of_ne hq ..)
      (fun q hq => Function.update_of_ne hq ..) (fun q hq => Function.update_of_ne hq ..)
      fun _ _ => rfl
  refine ⟨role, R.keep_simple R.reworded rfl rfl rfl rfl (fun q => ?_) (fun q hq => by cases hq)
    (fun q b h => ?_) (fun q b h => by cases h), D.sums S
    ((D.recount B rfl ?_ ?_ ?_).chunk htable) (fun b _ => .inl ?_)
    (fun u q b => D.uses_same S rfl fun _ _ h => by cases h) ?_ ?_ fun _ => ?_⟩
  · exact client_counted hon q
  · rw [hpc] at h
    cases h
  · show (Function.update s.machine.refs (s.chunk p) _ (s.chunk p)).toNat = _
    have hold := B.word
    rw [hcount, hrefs, hword]
    omega
  · rw [hcount, hpc, hone]
    rfl
  · show Function.update s.spare p (s.spare p + 1) p + 0 = _
    rw [hspare, hpc]
    simp [Pc.weight]
  · rw [hcount]
    exact Nat.succ_pos _
  · exact books_counted (s := s) (by rw [hpc]; rfl)
  · show Function.update s.borrowed p (s.borrowed p - if fresh then 0 else 1) p + (s.pc t).borrows p =
      s.borrowed p + 0
    rw [Function.update_self]
    cases fresh with
    | true =>
      have hwas : (Pc.addFetch p true).borrows p = 0 := by simp [Pc.borrows]
      rw [hpc, hwas]
      rfl
    | false =>
      have hwas : (Pc.addFetch p false).borrows p = 1 := by simp [Pc.borrows]
      have hborrowed := (S.holder (t := t) (p := p) (by rw [hpc, hwas])).1
      rw [hpc, hwas]
      exact Nat.sub_add_cancel hborrowed
  · show 0 < Function.update s.spare p (s.spare p + 1) p
    rw [hspare]
    exact Nat.succ_pos _

end steps

end OsKernel.PhysMem
