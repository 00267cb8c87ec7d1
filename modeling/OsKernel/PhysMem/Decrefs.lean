import OsKernel.PhysMem.Increfs

/-!
# A step of `decref`

The step that takes the last reference leaves the frame to the call, and the one that takes
the last frame from the word of the chunk leaves the table.

Between the two atomic operations the frame has the entry zero and is still in the word: no
other core can have to do with it (`sole`), and no `incref` can come, since nobody holds it.
The same goes for the table once the word counts nothing. So from there to its `dealloc_frame`
the call is alone with what it frees, and the proofs of these steps are about roles only.

The other half of the file is about the step at which the word comes to zero. The entries of
the table are then all zero (`Tabled.emptied`), and with no `incref` behind a load nobody uses
the table (`Roles.unused`). The second of these is what `StepOk` is needed for.
-/

set_option autoImplicit false

namespace OsKernel.PhysMem

open Lib Lib.Prog K

section steps

variable {T : Type} [DecidableEq T] [Fintype T] {lo hi : Nat} {s : Cores T} {t : T} {p rtb : Word}
  {role : Word → Role T}

omit [DecidableEq T] in
/-- A `decref` takes one of the references in the entry. -/
theorem subFetch_due (S : Sums lo hi s) (hpc : s.pc t = .subFetch p rtb) (hp : FrameIn lo hi p) :
    (rd16 (s.machine.mem rtb) (s.slot p) - 1#16).toNat + 1 = s.due p := by
  have B := (S.chunk _).tabled (S.uses t p rtb (by rw [hpc]; rfl))
  have hone : (Pc.subFetch p rtb).weight p = 1 := by simp [Pc.weight]
  have hle := le_total (f := Pc.weight p) (x := s.pc) t
  rw [hpc, hone] at hle
  have hdue : s.due p = s.spare p + total (Pc.weight p) s.pc := rfl
  have hentry := B.entry p hp rfl
  have hlt := (rd16 (s.machine.mem rtb) (s.slot p)).isLt
  have hbit : (1#16).toNat = 1 := rfl
  rw [BitVec.toNat_sub, hbit]
  omega

/-- The last reference is gone: the frame is left to the call. -/
theorem uncountedLast (R : Roles lo hi s role) (S : Sums lo hi s) (hpc : s.pc t = .subFetch p rtb)
    (hval : rd16 (s.machine.mem rtb) (s.slot p) - 1#16 = 0#16) :
    Inv lo hi ((s.setEntry rtb (s.slot p) (rd16 (s.machine.mem rtb) (s.slot p) - 1#16)).setPc t
      (.call p)) := by
  have hon : (s.pc t).on = some p := by rw [hpc]; rfl
  have htable : s.table (s.chunk p) = some rtb := S.uses t p rtb (by rw [hpc]; rfl)
  have B := (S.chunk _).tabled htable
  have hp := R.inRange hon
  have hsub := subFetch_due S hpc hp
  have hdue : s.due p = 1 := by
    rw [hval] at hsub
    exact hsub.symm
  have hentry : rd16 (s.machine.mem rtb) (s.slot p) ≠ 0#16 := by
    intro h0
    have he := B.entry p hp rfl
    rw [h0, hdue] at he
    exact absurd he (by decide)
  have hwas : (Pc.subFetch p rtb).weight p = 1 := by simp [Pc.weight]
  -- the one reference that is due is the call's own
  have halone : s.spare p = 0 ∧ ∀ u, u ≠ t → (s.pc u).on ≠ some p := by
    have hle := le_total (f := Pc.weight p) (x := s.pc) t
    rw [hpc, hwas] at hle
    unfold Cores.due at hdue
    have hnone : s.spare p = 0 := by omega
    refine ⟨hnone, fun u hut hu => ?_⟩
    by_cases hsole : (s.pc u).sole = some p
    · exact hut ((R.sole u p hsole).2 t hon).symm
    · rcases Pc.weight_or_borrows hu hsole with hpos | hpos
      · -- two calls that count for something
        have hadd := add_le_total (f := Pc.weight p) (x := s.pc) hut
        rw [hpc, hwas] at hadd
        omega
      · -- a holder that has nothing
        have hlent := S.lent p
        rw [S.borrowed p] at hlent
        have hspare := hlent (Nat.lt_of_lt_of_le hpos (le_total u))
        omega
  have D : Does s ((s.setEntry rtb (s.slot p) (rd16 (s.machine.mem rtb) (s.slot p) - 1#16)).setPc t
      (.call p)) t p (.call p) :=
    .entry R hon htable (fun q hq => (Option.some.inj hq).symm) rfl rfl rfl (fun _ _ => rfl)
      (fun _ _ => rfl) (fun _ _ => rfl) fun _ _ => rfl
  refine ⟨role, R.keep_simple (R.wrote htable) rfl rfl rfl rfl (fun q => ?_) (fun q hq => ?_)
    (fun q b h => ?_) (fun q b h => by cases h), D.sums S (Tabled.chunk (a := rtb) ?_ htable)
    (fun b => D.kept_same S rfl rfl fun c h => ?_) (fun u q b => D.uses_same S rfl fun _ _ h => by cases h)
    ?_ ?_ (S.lent p)⟩
  · rw [hpc]
    exact Iff.rfl
  · obtain rfl : p = q := Option.some.inj hq
    exact halone
  · rw [hpc] at h
    cases h
  · refine D.rewritten R B hp rfl (Function.update_self ..) ?_ ?_
    · have hat := D.due_moved rfl
      have hnow : (Pc.call p).weight p = 0 := rfl
      rw [hpc, hdue, hwas, hnow] at hat
      rw [hval]
      exact (Nat.add_right_cancel hat).symm
    · have hnow : (Pc.call p).dropping s.machine.start (s.chunk p) = 1 := if_pos rfl
      rw [hpc, hval, if_pos hentry, hnow]
      rfl
  · rw [hpc] at h
    exact h.elim
  · rw [hpc]
    rfl
  · rw [hpc]
    rfl

/-- References are left. -/
theorem uncountedMore (R : Roles lo hi s role) (S : Sums lo hi s) (hpc : s.pc t = .subFetch p rtb)
    (hval : rd16 (s.machine.mem rtb) (s.slot p) - 1#16 ≠ 0#16) :
    Inv lo hi ((s.setEntry rtb (s.slot p) (rd16 (s.machine.mem rtb) (s.slot p) - 1#16)).uncounted t
      p) := by
  have hon : (s.pc t).on = some p := by rw [hpc]; rfl
  have htable : s.table (s.chunk p) = some rtb := S.uses t p rtb (by rw [hpc]; rfl)
  have B := (S.chunk _).tabled htable
  have hp := R.inRange hon
  have hsub := subFetch_due S hpc hp
  have hentry : rd16 (s.machine.mem rtb) (s.slot p) ≠ 0#16 := by
    intro h0
    have he := B.entry p hp rfl
    rw [h0] at he
    have hz : (0#16).toNat = 0 := rfl
    omega
  have hwas : (Pc.subFetch p rtb).weight p = 1 := by simp [Pc.weight]
  have hdecrefs : Function.update s.decrefs p (s.decrefs p + 1) p = s.decrefs p + 1 :=
    Function.update_self ..
  have D : Does s ((s.setEntry rtb (s.slot p) (rd16 (s.machine.mem rtb) (s.slot p) - 1#16)).uncounted t
      p) t p .idle :=
    .entry R hon htable (fun q hq => by cases hq) rfl rfl rfl (fun _ _ => rfl)
      (fun _ _ => rfl) (fun _ _ => rfl) fun q hq => Function.update_of_ne hq ..
  have hdue : Cores.due ((s.setEntry rtb (s.slot p)
      (rd16 (s.machine.mem rtb) (s.slot p) - 1#16)).uncounted t p) p =
      (rd16 (s.machine.mem rtb) (s.slot p) - 1#16).toNat := by
    have hat := D.due_moved rfl
    have hnow : Pc.idle.weight p = 0 := rfl
    rw [hpc, hwas, hnow] at hat
    omega
  have hleft : 0 < (rd16 (s.machine.mem rtb) (s.slot p) - 1#16).toNat :=
    Nat.pos_of_ne_zero fun h0 => hval (BitVec.toNat_inj.mp h0)
  refine ⟨role, R.keep (R.wrote htable) rfl rfl rfl rfl (fun q => ?_) (fun u q hut hu => ?_)
    (fun q hq => by cases hq) (fun q b h => ?_) (fun q b h => by cases h),
    D.sums S (Tabled.chunk (a := rtb) ?_ htable) (fun b => D.kept_same S rfl rfl fun c h => ?_)
    (fun u q b => D.uses_same S rfl fun _ _ h => by cases h) ?_ ?_ (S.lent p)⟩
  · by_cases hq : q = p
    · rw [hq]
      refine iff_of_true (on_of_due ?_) (.inr ⟨t, hon⟩)
      rw [hdue]
      exact hleft
    · refine or_congr_right (exists_congr fun u => ?_)
      rw [D.pc]
      by_cases hut : u = t
      · rw [hut, Function.update_self, hon]
        exact iff_of_false (fun h => by cases h) fun h => hq (Option.some.inj h).symm
      · rw [Function.update_of_ne hut]
  · exact ⟨(R.sole u q hu).1, fun h => by cases h⟩
  · rw [hpc] at h
    cases h
  · refine D.rewritten R B hp rfl (Function.update_self ..) hdue.symm ?_
    rw [hpc, if_pos hentry, if_pos hval]
    rfl
  · rw [hpc] at h
    exact h.elim
  · show s.spare p + 0 + Function.update s.decrefs p (s.decrefs p + 1) p + s.increfs p =
      s.spare p + (s.pc t).tied p + s.decrefs p + s.increfs p
    have htied : (Pc.subFetch p rtb).tied p = 1 := by simp [Pc.tied]
    rw [hdecrefs, hpc, htied]
    omega
  · rw [hpc]
    rfl

omit [DecidableEq T] in
/-- The call has still to take one from the word, and the chunk has a table to count in. -/
theorem drop_count (R : Roles lo hi s role) (S : Sums lo hi s) (hpc : s.pc t = .drop p) :
    ∃ a, s.table (s.chunk p) = some a ∧ Tabled lo hi s (s.chunk p) a ∧ 0 < s.count (s.chunk p) := by
  have hone : (Pc.drop p).dropping s.machine.start (s.chunk p) = 1 := if_pos rfl
  have hle := le_total (f := Pc.dropping s.machine.start (s.chunk p)) (x := s.pc) t
  rw [hpc, hone] at hle
  cases ht : s.table (s.chunk p) with
  | none =>
    rw [((S.chunk _).bare ht).dropping] at hle
    exact absurd hle (by decide)
  | some a =>
    have B := (S.chunk _).tabled ht
    have hadd := B.adding_le R
    have hcount := B.count
    exact ⟨a, rfl, B, by omega⟩

/-- One entry less in the word. -/
theorem dropped (R : Roles lo hi s role) (S : Sums lo hi s) (hpc : s.pc t = .drop p)
    (hleft : (s.machine.refs (s.chunk p) - 1#32) &&& 0xfff#32 ≠ 0#32) :
    Inv lo hi ((s.setWord (s.chunk p) (s.machine.refs (s.chunk p) - 1#32)).uncounted t p) := by
  obtain ⟨a, htable, B, hpos⟩ := drop_count R S hpc
  obtain ⟨hword, hlow⟩ := low_pred hpos
  have hrefs : Function.update s.machine.refs (s.chunk p) (s.machine.refs (s.chunk p) - 1#32)
      (s.chunk p) = s.machine.refs (s.chunk p) - 1#32 := Function.update_self ..
  have hdecrefs : Function.update s.decrefs p (s.decrefs p + 1) p = s.decrefs p + 1 :=
    Function.update_self ..
  have hcount : Cores.count ((s.setWord (s.chunk p) (s.machine.refs (s.chunk p) - 1#32)).uncounted t
      p) (s.chunk p) + 1 = s.count (s.chunk p) := by
    show (Function.update s.machine.refs (s.chunk p) _ (s.chunk p)).toNat % 4096 + 1 = _
    rw [hrefs]
    exact hlow
  have D : Does s ((s.setWord (s.chunk p) (s.machine.refs (s.chunk p) - 1#32)).uncounted t p) t p
      .idle :=
    .word (by rw [hpc]; exact fun q hq => (Option.some.inj hq).symm) (fun q hq => by cases hq) rfl rfl
      (fun _ _ => rfl) (fun _ _ => rfl) (fun _ _ => rfl) (fun _ _ => rfl) fun q hq => Function.update_of_ne hq ..
  refine ⟨role, R.keep_simple R.reworded rfl rfl rfl rfl (fun q => ?_) (fun q hq => by cases hq)
    (fun q b h => ?_) (fun q b h => by cases h), D.sums S
    ((D.recount B rfl ?_ ?_ ?_).chunk htable) (fun b _ => .inl ?_)
    (fun u q b => D.uses_same S rfl fun _ _ h => by cases h) ?_ ?_ (S.lent p)⟩
  · rw [hpc]
    exact Iff.rfl
  · rw [hpc] at h
    cases h
  · show (Function.update s.machine.refs (s.chunk p) _ (s.chunk p)).toNat = _
    have hold := B.word
    rw [hrefs]
    omega
  · have hone : (Pc.drop p).dropping s.machine.start (s.chunk p) = 1 := if_pos rfl
    rw [hpc, hone]
    show _ + 0 + 1 = _ + 0 + 0
    exact hcount
  · rw [hpc]
    rfl
  · refine Nat.pos_of_ne_zero fun h0 => hleft ?_
    rw [← BitVec.toNat_inj, toNat_and_low]
    have hzero : (Function.update s.machine.refs (s.chunk p) (s.machine.refs (s.chunk p) - 1#32)
      (s.chunk p)).toNat % 4096 = 0 := h0
    rw [hrefs] at hzero
    exact hzero
  · show s.spare p + 0 + Function.update s.decrefs p (s.decrefs p + 1) p + s.increfs p =
      s.spare p + (s.pc t).tied p + s.decrefs p + s.increfs p
    have htied : (Pc.drop p).tied p = 1 := by simp [Pc.tied]
    rw [hdecrefs, hpc, htied]
    omega
  · rw [hpc]
    rfl

omit [DecidableEq T] in
/-- The last entry that the word counts is about to be taken away: the table is empty. -/
theorem Tabled.emptied {c : Nat} {a : Word} (B : Tabled lo hi s c a) (R : Roles lo hi s role)
    (hone : s.count c = 1) (hadding : total (Pc.adding s.machine.start c) s.pc = 0)
    (hdropping : 0 < total (Pc.dropping s.machine.start c) s.pc) :
    total (Pc.dropping s.machine.start c) s.pc = 1 ∧
      ∀ q, FrameIn lo hi q → s.chunk q = c → s.due q = 0 := by
  have hcount := B.count
  refine ⟨by omega, fun q hq hc => ?_⟩
  rw [← B.entry q hq hc]
  by_contra hne
  have hin := nonzero_pos_iff.mpr ⟨_, R.slot_lt hq, fun h0 => hne (by rw [h0]; rfl)⟩
  omega

omit [DecidableEq T] in
/-- Nobody uses an empty table that no `incref` has loaded. -/
theorem Roles.unused (R : Roles lo hi s role) {c : Nat}
    (hloaded : ∀ u, ¬(s.pc u).hasLoaded s.machine.start c)
    (hdue : ∀ q, FrameIn lo hi q → s.chunk q = c → s.due q = 0) {u : T} {q b : Word}
    (hu : (s.pc u).uses = some (q, b)) : s.chunk q ≠ c := by
  intro hc
  cases hw : s.pc u with
  | fetchAdd q' fresh b' =>
    rw [hw] at hu
    cases hu
    refine hloaded u ?_
    rw [hw]
    exact hc
  | subFetch q' b' =>
    rw [hw] at hu
    cases hu
    -- its reference would be in the entry
    have hq := R.inRange (t := u) (p := q) (by rw [hw]; rfl)
    have hle := le_total (f := Pc.weight q) (x := s.pc) u
    have hzero := hdue q hq hc
    have hwas : (Pc.subFetch q b).weight q = 1 := by simp [Pc.weight]
    rw [hw, hwas] at hle
    unfold Cores.due at hzero
    omega
  | _ =>
    rw [hw] at hu
    cases hu

/-- The word counts nothing any more: the table is left to the call. -/
theorem forgotten (R : Roles lo hi s role) (S : Sums lo hi s) (hpc : s.pc t = .drop p)
    (hnone : (s.machine.refs (s.chunk p) - 1#32) &&& 0xfff#32 = 0#32)
    (hloaded : ∀ u, ¬(s.pc u).hasLoaded s.machine.start (s.chunk p)) :
    Inv lo hi (({ s.setWord (s.chunk p) (s.machine.refs (s.chunk p) - 1#32) with
      table := Function.update s.table (s.chunk p) none } : Cores T).setPc t
      (.dealloc p ((s.machine.refs (s.chunk p) - 1#32) &&& 0xfffff000#32))) := by
  obtain ⟨a, htable, B, hpos⟩ := drop_count R S hpc
  obtain ⟨hword, hlow⟩ := low_pred hpos
  have hal : a.toNat % 4096 = 0 := (R.frameIn (R.live_of_table htable)).1
  -- the entry that the call takes away was the last one
  have hone : s.count (s.chunk p) = 1 := by
    have hzero := congrArg BitVec.toNat hnone
    rw [toNat_and_low] at hzero
    have hz : (0#32).toNat = 0 := rfl
    unfold Cores.count
    omega
  have hname : (s.machine.refs (s.chunk p) - 1#32) &&& 0xfffff000#32 = a := by
    have hold := B.word
    rw [← BitVec.toNat_inj, toNat_and_high]
    omega
  rw [hname]
  have hrefs : Function.update s.machine.refs (s.chunk p) (s.machine.refs (s.chunk p) - 1#32)
      (s.chunk p) = s.machine.refs (s.chunk p) - 1#32 := Function.update_self ..
  have hrole := (R.table _ _).mp htable
  have D : Does s (({ s.setWord (s.chunk p) (s.machine.refs (s.chunk p) - 1#32) with
      table := Function.update s.table (s.chunk p) none } : Cores T).setPc t (.dealloc p a)) t p
      (.dealloc p a) :=
    .word (by rw [hpc]; exact fun q hq => (Option.some.inj hq).symm)
      (fun q hq => (Option.some.inj hq).symm) rfl rfl (fun c hc => Function.update_of_ne hc ..)
      (fun _ _ => rfl) (fun _ _ => rfl) (fun _ _ => rfl) fun _ _ => rfl
  -- no `incref` has loaded the table, so none is about to add to the word
  have hadding : total (Pc.adding s.machine.start (s.chunk p)) s.pc = 0 :=
    total_eq_zero_iff.mpr fun u => Pc.adding_of_not (hloaded u)
  have hdropping := le_total (f := Pc.dropping s.machine.start (s.chunk p)) (x := s.pc) t
  have hdrop : (Pc.drop p).dropping s.machine.start (s.chunk p) = 1 := if_pos rfl
  rw [hpc, hdrop] at hdropping
  obtain ⟨hlast, hdue⟩ := B.emptied R hone hadding hdropping
  have hsame : ∀ q, Cores.due (({ s.setWord (s.chunk p) (s.machine.refs (s.chunk p) - 1#32) with
      table := Function.update s.table (s.chunk p) none } : Cores T).setPc t (.dealloc p a)) q =
      s.due q := by
    intro q
    unfold Cores.due
    rw [D.pc, total_keep (by rw [hpc]; rfl)]
    rfl
  -- the frame of the table changes its role and nothing else does; the word of the chunk is bare
  -- now
  refine ⟨_, R.change (x := a) (r := .doomed t) (b := true) R.reworded rfl rfl rfl ?_ (by simp)
    (fun c b hb => ?_) (fun c => ?_) (fun q _ => ?_) (fun h => by cases h) ?_ (fun q b hb => ?_)
    (fun u => ?_) (fun q hq => by cases hq),
    D.sums S (Bare.chunk ⟨?_, ?_, ?_, fun q hq hc => ?_⟩ ?_) (fun b hb => ?_) (fun u q b hu hc => ?_)
    ?_ ?_ (S.lent p)⟩
  · show s.pool.live = _
    rw [← R.live_of_table htable, Function.update_eq_self]
  · show Function.update s.table (s.chunk p) none c = some b ↔ _
    by_cases hc : c = s.chunk p
    · rw [hc, Function.update_self, htable]
      exact iff_of_false (fun h => by cases h) fun h => hb (Option.some.inj h).symm
    · rw [Function.update_of_ne hc]
  · show Function.update s.table (s.chunk p) none c = some a ↔ _
    refine iff_of_false (fun h => ?_) fun h => by cases h
    by_cases hc : c = s.chunk p
    · rw [hc, Function.update_self] at h
      cases h
    · rw [Function.update_of_ne hc, R.table, hrole] at h
      injection h with h
      exact hc h.symm
  · rw [hpc]
    exact Iff.rfl
  · refine iff_of_false (fun h => by cases h) fun h => ?_
    have hclient : role a = .client := by
      refine (R.client a).mpr (h.imp_right fun ⟨u, hu⟩ => ⟨u, ?_⟩)
      rw [D.pc] at hu
      by_cases hut : u = t
      · rw [hut, Function.update_self] at hu
        cases hu
      · rwa [Function.update_of_ne hut] at hu
    rw [hrole] at hclient
    cases hclient
  · rw [hpc]
    exact iff_of_false (fun h => hb (by injection h with _ h; exact h.symm)) fun h => by cases h
  · rw [D.pc]
    by_cases hut : u = t
    · rw [hut, Function.update_self]
      exact iff_of_true rfl ⟨p, rfl⟩
    · rw [Function.update_of_ne hut]
      refine iff_of_false (fun h => hut (by injection h with h; exact h.symm)) fun ⟨q, hq⟩ => ?_
      have hr := (R.doomed u a).mpr ⟨q, hq⟩
      rw [hrole] at hr
      cases hr
  · show (Function.update s.machine.refs (s.chunk p) _ (s.chunk p)).toNat % 4096 = 0
    rw [hrefs]
    unfold Cores.count at hone
    omega
  · rw [D.pc, D.start, total_keep (by rw [hpc]; rfl)]
    exact hadding
  · have hat := D.total_at (Pc.dropping s.machine.start (s.chunk p))
    have hnow : (Pc.dealloc p a).dropping s.machine.start (s.chunk p) = 0 := rfl
    rw [hpc, hdrop, hnow] at hat
    rw [D.start]
    omega
  · rw [hsame]
    exact hdue q hq ((chunk_congr D.start q).symm.trans hc)
  · exact Function.update_self ..
  · have hb' : Function.update s.table (s.chunk p) none (s.chunk p) = some b := hb
    rw [Function.update_self] at hb'
    cases hb'
  · rw [D.pc] at hu
    by_cases hut : u = t
    · rw [hut, Function.update_self] at hu
      cases hu
    · rw [Function.update_of_ne hut] at hu
      exact absurd hc (R.unused hloaded hdue hu)
  · rw [hpc]
    rfl
  · rw [hpc]
    rfl

/-- `dealloc_frame` takes the frame `x`, which nobody but the call has to do with. -/
theorem freed (R : Roles lo hi s role) (S : Sums lo hi s) {s' : Cores T} {v : Pc} {x : Word}
    {m : Machine} (hlive : s.pool.live x = true) (htable : ∀ c, s.table c ≠ some x)
    (hx : s.spare x = 0 ∧ ∀ u, u ≠ t → (s.pc u).on ≠ some x)
    (hdoomed : ∀ u q, u ≠ t → s.pc u ≠ .dealloc q x)
    (hdealloc : deallocFrame x s.machine = .ok () m)
    (hframe : (s.pc t).About p) (hv : v = .drop p ∨ v = .idle)
    (hon : ∀ q, q ≠ x → (s.pc t).on ≠ some q) (hother : ∀ q a, a ≠ x → s.pc t ≠ .dealloc q a)
    (hpool : s'.pool = s.pool.setLive m x false) (hpc : s'.pc = Function.update s.pc t v)
    (hsame : s'.table = s.table) (hspare : s'.spare = s.spare) (hborrowed : s'.borrowed = s.borrowed)
    (hincrefs : s'.increfs = s.increfs)
    (hdecrefs : ∀ q, q ≠ p → s'.decrefs q = s.decrefs q)
    (hweight : (s.pc t).weight p = 0) (hadd : ∀ c, (s.pc t).adding s.machine.start c = 0)
    (hdrop : ∀ c, v.dropping s.machine.start c = (s.pc t).dropping s.machine.start c)
    (hrelies : ∀ c, ¬(s.pc t).relies s.machine.start c)
    (hbooks : v.tied p + s'.decrefs p = (s.pc t).tied p + s.decrefs p)
    (hborrows : ∀ q, (s.pc t).borrows q = 0) : Inv lo hi s' := by
  obtain ⟨used, free, P⟩ := R.parts
  obtain ⟨hstart, hrefs, hmem⟩ := wp_ok deallocFrame_keeps hdealloc
  have P' := wp_ok (P.dealloc hlive) hdealloc
  have hm : s'.machine = m := congrArg Pool.machine hpool
  have hnone : v.on = none ∧ v.sole = none ∧ v.weight p = 0 ∧ v.uses = none := by
    rcases hv with rfl | rfl <;> exact ⟨rfl, rfl, rfl, rfl⟩
  have hvborrows : v.borrows p = 0 := by
    rcases hv with rfl | rfl <;> rfl
  have hvadd : ∀ c, v.adding s.machine.start c = 0 := by
    rcases hv with rfl | rfl <;> exact fun _ => rfl
  have hvdealloc : ∀ q a, v ≠ .dealloc q a := by
    rcases hv with rfl | rfl <;> exact fun _ _ h => by cases h
  have hne : ∀ {c b}, s.table c = some b → b ≠ x := by
    rintro c b hb rfl
    exact htable c hb
  have D : Does s s' t p v :=
    { pc := hpc
      before := hframe
      after := by
        rcases hv with rfl | rfl
        · exact fun q hq => (Option.some.inj hq).symm
        · exact fun q hq => by cases hq
      start := by
        rw [hm]
        exact hstart
      table := fun c _ => by rw [hsame]
      refs := fun c _ => by
        rw [hm]
        exact congrFun hrefs c
      mem := fun c b _ hb => by rw [hm]; exact hmem b (hne hb)
      spare := fun q _ => by rw [hspare]
      borrowed := fun q _ => by rw [hborrowed]
      increfs := fun q _ => by rw [hincrefs]
      decrefs := hdecrefs }
  refine ⟨_, R.change (x := x) (r := .free) (b := false) ⟨used, x :: free, by rw [hpool]; exact P'⟩
    D.start hpc hspare (by rw [hpool]; rfl) (by simp) (fun c b _ => by rw [hsame]) (fun c => ?_)
    (fun q hq => ?_) (fun h => ?_) ?_ (fun q b hb => ?_) (fun u => ?_) (fun q hq => ?_),
    D.sums_quiet S (by rw [hsame]) (by rw [hm]; exact congrFun hrefs _)
    (fun b hb => by rw [hm]; exact hmem b (hne hb)) (fun c => (hvadd c).trans (hadd c).symm) hdrop
    (fun c h => absurd h (hrelies c)) (fun q b h => ?_) ?_ ?_ ?_ ?_⟩
  · rw [hsame]
    exact iff_of_false (htable c) fun h => by cases h
  · rw [hnone.1]
    exact iff_of_false (fun h => by cases h) (hon q hq)
  · rw [hnone.1] at h
    cases h
  · refine iff_of_false (fun h => by cases h) (nobody_on hpc hx.1 ?_ hx.2)
    rw [hnone.1]
    exact fun h => by cases h
  · exact iff_of_false (hvdealloc q b) (hother q b hb)
  · exact iff_of_false (fun h => by cases h) (nobody_frees hpc (fun q => hvdealloc q x) hdoomed u)
  · rw [hnone.2.1] at hq
    cases hq
  · rw [hnone.2.2.2] at h
    cases h
  · rw [hnone.2.2.1, hweight, hspare]
  · rw [hspare, hincrefs]
    omega
  · rw [hborrowed, hborrows, hvborrows]
  · rw [hborrowed, hspare]
    exact S.lent p

/-- The frame of the call goes back. -/
theorem released (R : Roles lo hi s role) (S : Sums lo hi s) (hpc : s.pc t = .call p) {m : Machine}
    (hdealloc : deallocFrame p s.machine = .ok () m) :
    Inv lo hi (({ s with pool := s.pool.setLive m p false } : Cores T).setPc t (.drop p)) := by
  have hon : (s.pc t).on = some p := by rw [hpc]; rfl
  have hclient := R.client_of_on hon
  refine freed R S (R.live_of_client hclient) (fun c => R.not_table hclient)
    (R.alone (by rw [hpc]; rfl)) (fun u q _ hq => ?_) hdealloc
    (by rw [hpc]; exact fun q hq => (Option.some.inj hq).symm) (.inl rfl) (fun q hq h => hq ?_)
    (fun q b _ h => ?_) rfl rfl rfl rfl rfl rfl (fun _ _ => rfl) (by rw [hpc]; rfl)
    (by rw [hpc]; exact fun _ => rfl) (by rw [hpc]; exact fun _ => rfl)
    (by rw [hpc]; exact fun _ h => h) (by rw [hpc]; rfl)
    (by rw [hpc]; exact fun _ => rfl)
  · have hr := (R.doomed u p).mpr ⟨q, hq⟩
    rw [hclient] at hr
    cases hr
  · rw [hon] at h
    exact (Option.some.inj h).symm
  · rw [hpc] at h
    cases h

/-- The table of the chunk goes back. -/
theorem discarded (R : Roles lo hi s role) (S : Sums lo hi s) (hpc : s.pc t = .dealloc p rtb)
    {m : Machine} (hdealloc : deallocFrame rtb s.machine = .ok () m) :
    Inv lo hi (({ s with pool := s.pool.setLive m rtb false } : Cores T).uncounted t p) := by
  have hrole := (R.doomed t rtb).mpr ⟨p, hpc⟩
  have hclient : ¬(0 < s.spare rtb ∨ ∃ u, (s.pc u).on = some rtb) := by
    rw [← R.client, hrole]
    exact fun h => by cases h
  refine freed R S ((R.live rtb).mpr ?_) (fun c hc => ?_)
    ⟨Nat.eq_zero_of_not_pos fun h => hclient (.inl h), fun u _ hu => hclient (.inr ⟨u, hu⟩)⟩
    (fun u q hut hq => ?_) hdealloc (by rw [hpc]; exact fun q hq => (Option.some.inj hq).symm) (.inr rfl)
    (fun q hq h => ?_) (fun q b hb h => ?_) rfl rfl rfl rfl rfl rfl
    (fun q hq => Function.update_of_ne hq ..) (by rw [hpc]; rfl) (by rw [hpc]; exact fun _ => rfl)
    (by rw [hpc]; exact fun _ => rfl) (by rw [hpc]; exact fun _ h => h) ?_
    (by rw [hpc]; exact fun _ => rfl)
  · rw [hrole]
    exact fun h => by cases h
  · have hr := (R.table c rtb).mp hc
    rw [hrole] at hr
    cases hr
  · have hr := (R.doomed u rtb).mpr ⟨q, hq⟩
    rw [hrole] at hr
    injection hr with hr
    exact hut hr.symm
  · rw [hpc] at h
    cases h
  · rw [hpc] at h
    injection h with _ h
    exact hb h.symm
  · show 0 + Function.update s.decrefs p (s.decrefs p + 1) p = _
    have htied : (Pc.dealloc p rtb).tied p = 1 := by simp [Pc.tied]
    rw [Function.update_self, hpc, htied]
    omega

omit [DecidableEq T] in
/-- A holder writes to its frame. -/
theorem filled (R : Roles lo hi s role) (S : Sums lo hi s) (hspare : 0 < s.spare p)
    (words : Nat → Word) : Inv lo hi
      (s.setMachine { s.machine with mem := Function.update s.machine.mem p words }) := by
  have hclient := (R.client p).mpr (.inl hspare)
  obtain ⟨used, free, P⟩ := R.parts
  have P' := P.fill (R.live_of_client hclient) words
  have hmem : ∀ c a, s.table c = some a → Function.update s.machine.mem p words a = s.machine.mem a := by
    intro c a ha
    refine Function.update_of_ne ?_ ..
    rintro rfl
    exact R.not_table hclient ha
  refine ⟨role, { R with parts := ⟨used, free, P'⟩ }, { S with chunk := fun c => ?_ }⟩
  exact (S.chunk c).congr rfl rfl rfl (hmem c) rfl rfl fun _ _ => rfl

end steps

end OsKernel.PhysMem
