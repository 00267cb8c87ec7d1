import OsKernel.Lib.RefGraph
import OsKernel.PhysMem.Calls

/-!
# The counts are exact on several cores

Every frame has a role: it is free, or a client's, or the table of a chunk, or a table that
one core is about to free. What an entry holds is `due`: the references that no call has in
hand, and what the calls on the frame account for by now. The word of a chunk is the address
of its table with the number of entries that are not zero, less the `incref`s that have still
to add one, plus the `decref`s that have still to take one away.

The invariant is in two parts, because they move at different steps. `Roles` says what each
frame is and which call has it to itself; it changes when a frame is handed out, when a
reference is the last one, and when a frame goes back. `Sums` is the arithmetic: of each
entry, of each chunk's word, of the borrowed references. It is stated with sums over all
cores, and a step of one core changes one summand (`Lib/Totals.lean`).

`Does` is the frame condition of a step: one call goes on, and at most the entry of its frame,
the word of its chunk and the references to its frame change. From it `Does.sums` leaves two
things to check for each kind of step, the books of that frame and the books of that chunk.
All the lemmas of `PhysMem/Increfs.lean` and `PhysMem/Decrefs.lean` are of that form.
-/

set_option autoImplicit false

namespace OsKernel.PhysMem

open Lib Lib.Prog K RefGraph

/-! ## What a call accounts for -/

namespace Pc

/-- The frame that the call is about. -/
def frame : Pc → Option Word
  | idle => none
  | enter p _ | load p _ | fetchAdd p _ _ | addFetch p _ => some p
  | read p | subFetch p _ | call p | drop p | dealloc p _ => some p

/-- The frame, as long as it is somebody's. -/
def on : Pc → Option Word
  | enter p _ | load p _ | fetchAdd p _ _ | addFetch p _ | read p | subFetch p _ | call p => some p
  | _ => none

/-- The frame, if nobody else can have to do with it. -/
def sole : Pc → Option Word
  | enter p fresh | load p fresh | fetchAdd p fresh _ => if fresh then some p else none
  | addFetch p _ | call p => some p
  | _ => none

/-- The part of the entry of `p` that stands for this call. -/
def weight (p : Word) : Pc → Nat
  | addFetch q _ | read q | subFetch q _ => if q = p then 1 else 0
  | _ => 0

/-- The reference that the caller has put in. -/
def tied (p : Word) : Pc → Nat
  | read q | subFetch q _ | call q | drop q | dealloc q _ => if q = p then 1 else 0
  | _ => 0

/-- The call relies on a reference to `p` that stays where it is. -/
def borrows (p : Word) : Pc → Nat
  | enter q fresh | load q fresh | fetchAdd q fresh _ | addFetch q fresh =>
    if q = p ∧ fresh = false then 1 else 0
  | _ => 0

/-- The chunk has still to be counted up. -/
def adding (start : Word) (c : Nat) : Pc → Nat
  | addFetch p _ => if ridx start p = c then 1 else 0
  | _ => 0

/-- The chunk has still to be counted down. -/
def dropping (start : Word) (c : Nat) : Pc → Nat
  | call p | drop p => if ridx start p = c then 1 else 0
  | _ => 0

/-- An `incref` that relies on the chunk's table. -/
def relies (start : Word) (c : Nat) : Pc → Prop
  | load p _ | fetchAdd p _ _ | addFetch p _ => ridx start p = c
  | _ => False

/-- A table whose address has been loaded, and the frame whose entry is accessed there. -/
def uses : Pc → Option (Word × Word)
  | fetchAdd p _ rtb | subFetch p rtb => some (p, rtb)
  | _ => none

/-- The call is about `p`, if there is one. -/
def About (p : Word) (v : Pc) : Prop := ∀ q, v.frame = some q → q = p

variable {v : Pc} {p q : Word} {start : Word} {c : Nat}

theorem frame_of_on (h : v.on = some p) : v.frame = some p := by
  cases v <;> first | exact h | cases h

theorem on_of_sole (h : v.sole = some p) : v.on = some p := by
  cases v <;> simp_all [sole, on]

theorem on_of_uses {rtb : Word} (h : v.uses = some (p, rtb)) : v.on = some p := by
  cases v <;> cases h <;> rfl

/-- A call that is not alone on its frame counts for something, or it relies on somebody. -/
theorem weight_or_borrows (h : v.on = some p) (hs : v.sole ≠ some p) :
    0 < v.weight p ∨ 0 < v.borrows p := by
  cases v <;> simp_all [weight, on, sole, borrows]

theorem weight_off (h : v.on ≠ some p) : v.weight p = 0 := by
  cases v <;> simp_all [weight, on]

theorem tied_off (h : v.frame ≠ some p) : v.tied p = 0 := by
  cases v <;> simp_all [tied, frame]

theorem borrows_off (h : v.frame ≠ some p) : v.borrows p = 0 := by
  cases v <;> simp_all [borrows, frame]

theorem adding_off (h : ∀ p, v.frame = some p → ridx start p ≠ c) : v.adding start c = 0 := by
  cases v <;> simp_all [adding, frame]

theorem dropping_off (h : ∀ p, v.frame = some p → ridx start p ≠ c) : v.dropping start c = 0 := by
  cases v <;> simp_all [dropping, frame]

theorem adding_of_not (h : ¬v.hasLoaded start c) : v.adding start c = 0 := by
  cases v <;> simp_all [adding, hasLoaded]

end Pc

/-! ## The entries of a table -/

/-- How many of them are not zero. -/
def nonzero (words : Nat → Word) : Nat :=
  hits 2048 (fun r => some (decide (rd16 words r ≠ 0#16))) true

theorem nonzero_pos_iff {words : Nat → Word} :
    0 < nonzero words ↔ ∃ r, r < 2048 ∧ rd16 words r ≠ 0#16 := by
  unfold nonzero
  rw [hits_pos_iff]
  simp

theorem nonzero_zero : nonzero (fun _ => 0#32) = 0 := by
  by_contra h
  obtain ⟨r, -, hr⟩ := nonzero_pos_iff.mp (Nat.pos_of_ne_zero h)
  exact hr (rd16_zero r)

/-- An entry is written. -/
theorem nonzero_wr16 (words : Nat → Word) {r : Nat} (hr : r < 2048) (v : BitVec 16) :
    nonzero (wr16 words r v) + (if rd16 words r ≠ 0#16 then 1 else 0) =
      nonzero words + if v ≠ 0#16 then 1 else 0 := by
  have hup := hits_update hr (fun r => some (decide (rd16 words r ≠ 0#16)))
    (some (decide (v ≠ 0#16))) true
  have hcongr : nonzero (wr16 words r v) = hits 2048 (Function.update
      (fun r => some (decide (rd16 words r ≠ 0#16))) r (some (decide (v ≠ 0#16)))) true := by
    refine hits_congr (fun i _ => ?_) true
    rw [rd16_wr16]
    by_cases hi : i = r
    · rw [hi, if_pos rfl, Function.update_self]
    · rw [if_neg hi, Function.update_of_ne hi]
  rw [hcongr]
  unfold nonzero
  simpa only [Option.some.injEq, decide_eq_true_eq] using hup

/-! ## The invariant

A frame has one role at a time: free, with a client, a table of a chunk, or a table that somebody
is about to free. `Roles` ties the roles to the free list, to the tables and to what the calls
have in hand; `Sums` is the arithmetic of the entries and the words.

What an entry should hold is `due`: the references that no call has in hand, and what each call on
the frame has added to the entry or has still to take from it. `total` adds up over the calls, so
the step of one call changes one summand. The lemmas `keep` and `change` are the two forms in
which a step acts on roles; most steps are of the first. -/

/-- What a frame is used for. -/
inductive Role (T : Type)
  | free
  | client
  | table (c : Nat)
  /-- a table that `t` is about to free -/
  | doomed (t : T)

variable {T : Type}

/-- Every frame has one role. -/
structure Roles (lo hi : Nat) (s : Cores T) (role : Word → Role T) : Prop where
  parts : ∃ used free, Parts lo hi used free s.pool
  start : s.machine.start.toNat = lo
  aligned : Aligned s.machine.start
  live : ∀ p, s.pool.live p = true ↔ role p ≠ .free
  table : ∀ c a, s.table c = some a ↔ role a = .table c
  client : ∀ p, role p = .client ↔ 0 < s.spare p ∨ ∃ t, (s.pc t).on = some p
  doomed : ∀ t a, role a = .doomed t ↔ ∃ p, s.pc t = .dealloc p a
  sole : ∀ t p, (s.pc t).sole = some p → s.spare p = 0 ∧ ∀ u, (s.pc u).on = some p → u = t

/-- The low bits of the chunk's word. -/
def Cores.count (s : Cores T) (c : Nat) : Nat := (s.machine.refs c).toNat % 4096

section congr

variable {s s' : Cores T} {c : Nat}

theorem chunk_congr (h : s'.machine.start = s.machine.start) (q : Word) : s'.chunk q = s.chunk q := by
  unfold Cores.chunk
  rw [h]

theorem slot_congr (h : s'.machine.start = s.machine.start) (q : Word) : s'.slot q = s.slot q := by
  unfold Cores.slot
  rw [h]

theorem count_congr (h : s'.machine.refs c = s.machine.refs c) : s'.count c = s.count c := by
  unfold Cores.count
  rw [h]

theorem count_eq_zero : s.machine.refs c &&& 0xfff#32 = 0#32 ↔ s.count c = 0 := by
  rw [← BitVec.toNat_inj, toNat_and_low]
  rfl

end congr

section

variable {lo hi : Nat} {s s' : Cores T} {t : T} {p q : Word} {v : Pc} {c : Nat} {a : Word}
  {role : Word → Role T}

namespace Roles

theorem client_of_on (R : Roles lo hi s role) (h : (s.pc t).on = some p) : role p = .client :=
  (R.client p).mpr (.inr ⟨t, h⟩)

theorem not_table (R : Roles lo hi s role) (h : role p = .client) : s.table c ≠ some p := by
  intro ht
  rw [(R.table c p).mp ht] at h
  cases h

theorem live_of_table (R : Roles lo hi s role) (h : s.table c = some a) : s.pool.live a = true := by
  rw [R.live, (R.table c a).mp h]
  exact fun h => by cases h

theorem live_of_client (R : Roles lo hi s role) (h : role p = .client) : s.pool.live p = true := by
  rw [R.live, h]
  exact fun h => by cases h

theorem frameIn (R : Roles lo hi s role) (h : s.pool.live p = true) : FrameIn lo hi p := by
  obtain ⟨used, free, P⟩ := R.parts
  have hin := P.liveIn p h
  exact ⟨hin.1, hin.2.1, Nat.lt_of_lt_of_le hin.2.2 P.usedLe⟩

/-- The frame of a call is in the range. -/
theorem inRange (R : Roles lo hi s role) (h : (s.pc t).on = some p) : FrameIn lo hi p :=
  R.frameIn (R.live_of_client (R.client_of_on h))

theorem slot_lt (R : Roles lo hi s role) (hp : FrameIn lo hi p) : s.slot p < 2048 :=
  rofs_lt (by rw [R.start]; exact hp.2.1)

/-- A frame is known by its chunk and its entry. -/
theorem slot_inj (R : Roles lo hi s role) (hp : FrameIn lo hi p) (hq : FrameIn lo hi q)
    (hc : s.chunk p = s.chunk q) (hs : s.slot p = s.slot q) : p = q := by
  have hbound : ∀ {x}, FrameIn lo hi x →
      s.machine.start.toNat + (s.chunk x * 2048 + s.slot x) * 4096 = x.toNat := fun hx =>
    slot_bound R.aligned hx.1 (by rw [R.start]; exact hx.2.1)
  have hp' := hbound hp
  have hq' := hbound hq
  rw [hc, hs] at hp'
  exact BitVec.toNat_inj.mp (hp'.symm.trans hq')

/-- Nobody else is on the frame. -/
theorem alone (R : Roles lo hi s role) (h : (s.pc t).sole = some q) :
    s.spare q = 0 ∧ ∀ u, u ≠ t → (s.pc u).on ≠ some q :=
  ⟨(R.sole t q h).1, fun u hut hu => hut ((R.sole t q h).2 u hu)⟩

/-- A frame that is not in use has no role yet. -/
theorem free_of_not_live (R : Roles lo hi s role) (h : s.pool.live p = false) : role p = .free := by
  by_contra hne
  have hlive := (R.live p).mpr hne
  rw [h] at hlive
  cases hlive

theorem off_free (R : Roles lo hi s role) (h : role p = .free) (t : T) : (s.pc t).on ≠ some p := by
  intro ht
  have hc := R.client_of_on ht
  rw [h] at hc
  cases hc

theorem spare_free (R : Roles lo hi s role) (h : role p = .free) : s.spare p = 0 := by
  by_contra hpos
  have hc := (R.client p).mpr (.inl (Nat.pos_of_ne_zero hpos))
  rw [h] at hc
  cases hc

theorem table_ne_free (R : Roles lo hi s role) (h : role p = .free) (ha : s.table c = some a) :
    a ≠ p := by
  rintro rfl
  have hr := (R.table c a).mp ha
  rw [h] at hr
  cases hr

theorem not_doomed_free (R : Roles lo hi s role) (h : role p = .free) (t : T) (q : Word) :
    s.pc t ≠ .dealloc q p := by
  intro ht
  have hr := (R.doomed t p).mpr ⟨q, ht⟩
  rw [h] at hr
  cases hr

variable [DecidableEq T]

/-- No frame changes its role. -/
theorem keep (R : Roles lo hi s role) (hparts : ∃ used free, Parts lo hi used free s'.pool)
    (hlive : s'.pool.live = s.pool.live) (htable : s'.table = s.table)
    (hstart : s'.machine.start = s.machine.start) (hpc : s'.pc = Function.update s.pc t v)
    (hclient : ∀ q, (0 < s'.spare q ∨ ∃ u, (s'.pc u).on = some q) ↔
      0 < s.spare q ∨ ∃ u, (s.pc u).on = some q)
    (hother : ∀ u q, u ≠ t → (s.pc u).sole = some q → s'.spare q = 0 ∧ v.on ≠ some q)
    (hsole : ∀ q, v.sole = some q → s'.spare q = 0 ∧ ∀ u, u ≠ t → (s.pc u).on ≠ some q)
    (hbefore : ∀ q a, s.pc t ≠ .dealloc q a) (hafter : ∀ q a, v ≠ .dealloc q a) :
    Roles lo hi s' role where
  parts := hparts
  start := by rw [hstart]; exact R.start
  aligned := by rw [hstart]; exact R.aligned
  live q := by rw [hlive]; exact R.live q
  table c a := by rw [htable]; exact R.table c a
  client q := (R.client q).trans (hclient q).symm
  doomed u a := by
    rw [R.doomed, hpc]
    by_cases hu : u = t
    · rw [hu, Function.update_self]
      exact ⟨fun ⟨q, hq⟩ => absurd hq (hbefore q a), fun ⟨q, hq⟩ => absurd hq (hafter q a)⟩
    · rw [Function.update_of_ne hu]
  sole u q hu := by
    rw [hpc] at hu ⊢
    by_cases hut : u = t
    · rw [hut, Function.update_self] at hu
      refine ⟨(hsole q hu).1, fun w hw => ?_⟩
      by_contra hwu
      rw [hut] at hwu
      rw [Function.update_of_ne hwu] at hw
      exact (hsole q hu).2 w hwu hw
    · rw [Function.update_of_ne hut] at hu
      refine ⟨(hother u q hut hu).1, fun w hw => ?_⟩
      by_cases hwt : w = t
      · rw [hwt, Function.update_self] at hw
        exact absurd hw (hother u q hut hu).2
      · rw [Function.update_of_ne hwt] at hw
        exact (R.sole u q hu).2 w hw

/-- The frame `x` gets the role `r`. -/
theorem change (R : Roles lo hi s role) {x : Word} {r : Role T} {b : Bool}
    (hparts : ∃ used free, Parts lo hi used free s'.pool)
    (hstart : s'.machine.start = s.machine.start) (hpc : s'.pc = Function.update s.pc t v)
    (hspare : s'.spare = s.spare) (hlive : s'.pool.live = Function.update s.pool.live x b)
    (hb : b = true ↔ r ≠ .free)
    (htable : ∀ c a, a ≠ x → (s'.table c = some a ↔ s.table c = some a))
    (htablex : ∀ c, s'.table c = some x ↔ r = .table c)
    (hon : ∀ q, q ≠ x → (v.on = some q ↔ (s.pc t).on = some q))
    (honx : v.on = some x → (s.pc t).on = some x ∨ ∀ u, (s.pc u).on ≠ some x)
    (hclient : r = .client ↔ 0 < s.spare x ∨ ∃ u, (s'.pc u).on = some x)
    (hdealloc : ∀ q a, a ≠ x → (v = .dealloc q a ↔ s.pc t = .dealloc q a))
    (hdoomed : ∀ u, r = .doomed u ↔ ∃ q, s'.pc u = .dealloc q x)
    (hsole : ∀ q, v.sole = some q →
      (s.pc t).sole = some q ∨ s.spare q = 0 ∧ ∀ u, (s.pc u).on ≠ some q) :
    Roles lo hi s' (Function.update role x r) where
  parts := hparts
  start := by rw [hstart]; exact R.start
  aligned := by rw [hstart]; exact R.aligned
  live q := by
    rw [hlive]
    by_cases hq : q = x
    · rw [hq, Function.update_self, Function.update_self]
      exact hb
    · rw [Function.update_of_ne hq, Function.update_of_ne hq]
      exact R.live q
  table c a := by
    by_cases ha : a = x
    · rw [ha, Function.update_self]
      exact htablex c
    · rw [Function.update_of_ne ha, htable c a ha]
      exact R.table c a
  client q := by
    by_cases hq : q = x
    · rw [hq, Function.update_self, hspare]
      exact hclient
    · rw [Function.update_of_ne hq, R.client, hspare, hpc]
      refine or_congr_right ⟨fun ⟨u, hu⟩ => ⟨u, ?_⟩, fun ⟨u, hu⟩ => ⟨u, ?_⟩⟩
      · by_cases hut : u = t
        · rw [hut] at hu ⊢
          rw [Function.update_self]
          exact (hon q hq).mpr hu
        · rwa [Function.update_of_ne hut]
      · by_cases hut : u = t
        · rw [hut] at hu ⊢
          rw [Function.update_self] at hu
          exact (hon q hq).mp hu
        · rwa [Function.update_of_ne hut] at hu
  doomed u a := by
    by_cases ha : a = x
    · rw [ha, Function.update_self]
      exact hdoomed u
    · rw [Function.update_of_ne ha, R.doomed, hpc]
      by_cases hut : u = t
      · rw [hut, Function.update_self]
        exact exists_congr fun q => (hdealloc q a ha).symm
      · rw [Function.update_of_ne hut]
  sole u q hu := by
    rw [hspare, hpc]
    rw [hpc] at hu
    by_cases hut : u = t
    · rw [hut, Function.update_self] at hu
      rw [hut]
      have hno : s.spare q = 0 ∧ ∀ w, w ≠ t → (s.pc w).on ≠ some q := by
        rcases hsole q hu with h | h
        · exact ⟨(R.sole t q h).1, fun w hwt hw => hwt ((R.sole t q h).2 w hw)⟩
        · exact ⟨h.1, fun w _ => h.2 w⟩
      refine ⟨hno.1, fun w hw => ?_⟩
      by_contra hwt
      rw [Function.update_of_ne hwt] at hw
      exact hno.2 w hwt hw
    · rw [Function.update_of_ne hut] at hu
      obtain ⟨h0, honly⟩ := R.sole u q hu
      refine ⟨h0, fun w hw => ?_⟩
      by_cases hwt : w = t
      · rw [hwt, Function.update_self] at hw
        -- the frame of `u` is not that of the step
        exfalso
        have hne : (s.pc t).on ≠ some q := fun h => hut (honly t h).symm
        by_cases hq : q = x
        · rw [hq] at hw hne hu
          rcases honx hw with h | h
          · exact hne h
          · exact h u (Pc.on_of_sole hu)
        · exact hne ((hon q hq).mp hw)
      · rw [Function.update_of_ne hwt] at hw
        exact honly w hw

/-- The same calls and references make the frames a client's. -/
theorem keep_simple (R : Roles lo hi s role) (hparts : ∃ used free, Parts lo hi used free s'.pool)
    (hlive : s'.pool.live = s.pool.live) (htable : s'.table = s.table)
    (hstart : s'.machine.start = s.machine.start) (hpc : s'.pc = Function.update s.pc t v)
    (hclient : ∀ q, 0 < s'.spare q ∨ v.on = some q ↔ 0 < s.spare q ∨ (s.pc t).on = some q)
    (hsole : ∀ q, v.sole = some q → s'.spare q = 0 ∧ ∀ u, u ≠ t → (s.pc u).on ≠ some q)
    (hbefore : ∀ q a, s.pc t ≠ .dealloc q a) (hafter : ∀ q a, v ≠ .dealloc q a) :
    Roles lo hi s' role := by
  refine R.keep hparts hlive htable hstart hpc (fun q => ?_) (fun u q hut hu => ?_)
    hsole hbefore hafter
  · rw [hpc]
    constructor
    · rintro (h | ⟨u, hu⟩)
      · exact ((hclient q).mp (.inl h)).imp_right fun h => ⟨t, h⟩
      · by_cases hut : u = t
        · rw [hut, Function.update_self] at hu
          exact ((hclient q).mp (.inr hu)).imp_right fun h => ⟨t, h⟩
        · rw [Function.update_of_ne hut] at hu
          exact .inr ⟨u, hu⟩
    · have hback : 0 < s.spare q ∨ (s.pc t).on = some q →
          0 < s'.spare q ∨ ∃ u, (Function.update s.pc t v u).on = some q := by
        intro h
        refine ((hclient q).mpr h).imp_right fun h => ⟨t, ?_⟩
        rw [Function.update_self]
        exact h
      rintro (h | ⟨u, hu⟩)
      · exact hback (.inl h)
      · by_cases hut : u = t
        · rw [hut] at hu
          exact hback (.inr hu)
        · refine .inr ⟨u, ?_⟩
          rw [Function.update_of_ne hut]
          exact hu
  · obtain ⟨h0, honly⟩ := R.sole u q hu
    have hno : ¬(0 < s'.spare q ∨ v.on = some q) := by
      rw [hclient]
      rintro (h | h)
      · omega
      · exact hut (honly t h).symm
    exact ⟨Nat.eq_zero_of_not_pos fun h => hno (.inl h), fun h => hno (.inr h)⟩

end Roles

section alone

variable [DecidableEq T] {x : Word}

/-- Nobody comes to have to do with a frame but by the step. -/
theorem nobody_on (hpc : s'.pc = Function.update s.pc t v) (hspare : s.spare x = 0)
    (hv : v.on ≠ some x) (hx : ∀ u, u ≠ t → (s.pc u).on ≠ some x) :
    ¬(0 < s.spare x ∨ ∃ u, (s'.pc u).on = some x) := by
  rintro (h | ⟨u, hu⟩)
  · rw [hspare] at h
    exact Nat.lt_irrefl 0 h
  · rw [hpc] at hu
    by_cases hut : u = t
    · rw [hut, Function.update_self] at hu
      exact hv hu
    · rw [Function.update_of_ne hut] at hu
      exact hx u hut hu

/-- Nor comes to have a table to free. -/
theorem nobody_frees (hpc : s'.pc = Function.update s.pc t v) (hv : ∀ q, v ≠ .dealloc q x)
    (hx : ∀ u q, u ≠ t → s.pc u ≠ .dealloc q x) (u : T) : ¬∃ q, s'.pc u = .dealloc q x := by
  rintro ⟨q, hq⟩
  rw [hpc] at hq
  by_cases hut : u = t
  · rw [hut, Function.update_self] at hq
    exact hv q hq
  · rw [Function.update_of_ne hut] at hq
    exact hx u q hut hq

end alone

end

variable [Fintype T]

/-- What the entry of `p` should hold. -/
def Cores.due (s : Cores T) (p : Word) : Nat := s.spare p + total (Pc.weight p) s.pc

/-- A chunk without a table. -/
structure Bare (lo hi : Nat) (s : Cores T) (c : Nat) : Prop where
  count : s.count c = 0
  adding : total (Pc.adding s.machine.start c) s.pc = 0
  dropping : total (Pc.dropping s.machine.start c) s.pc = 0
  due : ∀ p, FrameIn lo hi p → s.chunk p = c → s.due p = 0

/-- A chunk with the table `a`. -/
structure Tabled (lo hi : Nat) (s : Cores T) (c : Nat) (a : Word) : Prop where
  word : (s.machine.refs c).toNat = a.toNat + s.count c
  count : s.count c + total (Pc.adding s.machine.start c) s.pc =
    nonzero (s.machine.mem a) + total (Pc.dropping s.machine.start c) s.pc
  entry : ∀ p, FrameIn lo hi p → s.chunk p = c →
    (rd16 (s.machine.mem a) (s.slot p)).toNat = s.due p
  rest : ∀ r, r < 2048 → rd16 (s.machine.mem a) r ≠ 0#16 →
    ∃ p, FrameIn lo hi p ∧ s.chunk p = c ∧ s.slot p = r

def Chunk (lo hi : Nat) (s : Cores T) (c : Nat) : Prop :=
  match s.table c with
  | none => Bare lo hi s c
  | some a => Tabled lo hi s c a

structure Sums (lo hi : Nat) (s : Cores T) : Prop where
  chunk : ∀ c, Chunk lo hi s c
  /-- a table that counts nothing yet is about to -/
  kept : ∀ c a, s.table c = some a → 0 < s.count c ∨ ∃ t, (s.pc t).relies s.machine.start c
  uses : ∀ t p a, (s.pc t).uses = some (p, a) → s.table (s.chunk p) = some a
  books : ∀ p, s.spare p + total (Pc.tied p) s.pc + s.decrefs p = s.increfs p
  borrowed : ∀ p, s.borrowed p = total (Pc.borrows p) s.pc
  /-- and there is a reference to rely on -/
  lent : ∀ p, 0 < s.borrowed p → 0 < s.spare p

variable {lo hi : Nat} {s s' : Cores T} {t : T} {p q : Word} {v : Pc} {c : Nat} {a : Word}
  {role : Word → Role T}

theorem Chunk.bare (h : Chunk lo hi s c) (ht : s.table c = none) : Bare lo hi s c := by
  unfold Chunk at h
  rwa [ht] at h

theorem Chunk.tabled (h : Chunk lo hi s c) (ht : s.table c = some a) : Tabled lo hi s c a := by
  unfold Chunk at h
  rwa [ht] at h

theorem Bare.chunk (h : Bare lo hi s c) (ht : s.table c = none) : Chunk lo hi s c := by
  unfold Chunk
  rwa [ht]

theorem Tabled.chunk (h : Tabled lo hi s c a) (ht : s.table c = some a) : Chunk lo hi s c := by
  unfold Chunk
  rwa [ht]

theorem Tabled.tableOf (B : Tabled lo hi s c a) (ha : Aligned a) :
    s.machine.refs c &&& 0xfffff000#32 = a := by
  have hword := B.word
  unfold Aligned at ha
  unfold Cores.count at hword
  rw [← BitVec.toNat_inj, toNat_and_high]
  omega

/-- A chunk of which nothing changes. -/
theorem Chunk.congr (h : Chunk lo hi s c) (hstart : s'.machine.start = s.machine.start)
    (htable : s'.table c = s.table c) (hrefs : s'.machine.refs c = s.machine.refs c)
    (hmem : ∀ a, s.table c = some a → s'.machine.mem a = s.machine.mem a)
    (hadd : total (Pc.adding s.machine.start c) s'.pc = total (Pc.adding s.machine.start c) s.pc)
    (hdrop : total (Pc.dropping s.machine.start c) s'.pc =
      total (Pc.dropping s.machine.start c) s.pc)
    (hdue : ∀ p, s.chunk p = c → s'.due p = s.due p) : Chunk lo hi s' c := by
  have hcount := count_congr hrefs
  cases ht : s.table c with
  | none =>
    have B := h.bare ht
    refine Bare.chunk ⟨hcount.trans B.count, ?_, ?_, fun p hp hc => ?_⟩ (htable.trans ht)
    · rw [hstart, hadd, B.adding]
    · rw [hstart, hdrop, B.dropping]
    · rw [chunk_congr hstart] at hc
      rw [hdue p hc, B.due p hp hc]
  | some a =>
    have B := h.tabled ht
    refine Tabled.chunk (a := a) ⟨?_, ?_, fun p hp hc => ?_, fun r hr hne => ?_⟩ (htable.trans ht)
    · rw [hrefs, hcount, B.word]
    · rw [hcount, hmem a ht, hstart, hadd, hdrop, B.count]
    · rw [chunk_congr hstart] at hc
      rw [hmem a ht, slot_congr hstart, hdue p hc, B.entry p hp hc]
    · rw [hmem a ht] at hne
      obtain ⟨p, hp, hc, hrp⟩ := B.rest r hr hne
      exact ⟨p, hp, (chunk_congr hstart p).trans hc, (slot_congr hstart p).trans hrp⟩

theorem on_of_due (h : 0 < s.due p) : 0 < s.spare p ∨ ∃ t, (s.pc t).on = some p := by
  by_cases h0 : 0 < s.spare p
  · exact .inl h0
  · refine .inr ?_
    by_contra hno
    have hzero : total (Pc.weight p) s.pc = 0 :=
      total_eq_zero_iff.mpr fun t => Pc.weight_off fun hon => hno ⟨t, hon⟩
    unfold Cores.due at h
    omega

namespace Roles

/-- The call is all that the entry stands for. -/
theorem due_sole (R : Roles lo hi s role) (h : (s.pc t).sole = some p) :
    s.due p = (s.pc t).weight p := by
  obtain ⟨h0, honly⟩ := R.sole t p h
  unfold Cores.due
  rw [h0, Nat.zero_add]
  exact total_single fun u hu => Pc.weight_off fun hon => hu (honly u hon)

end Roles

/-- Each `incref` that has still to add one to the word has made an entry one. -/
theorem Tabled.adding_le (B : Tabled lo hi s c a) (R : Roles lo hi s role) :
    total (Pc.adding s.machine.start c) s.pc ≤ nonzero (s.machine.mem a) := by
  have hat : ∀ {u : T}, 0 < (s.pc u).adding s.machine.start c →
      ∃ q fresh, s.pc u = .addFetch q fresh ∧ s.chunk q = c := by
    intro u hu
    cases hpc : s.pc u with
    | addFetch q fresh =>
      rw [hpc] at hu
      refine ⟨q, fresh, rfl, ?_⟩
      by_contra hc
      have hzero : (Pc.addFetch q fresh).adding s.machine.start c = 0 := if_neg hc
      omega
    | _ =>
      rw [hpc] at hu
      exact absurd hu (Nat.lt_irrefl 0)
  have hin : ∀ {u : T} {q : Word} {fresh : Bool}, s.pc u = .addFetch q fresh →
      FrameIn lo hi q := by
    intro u q fresh hpc
    exact R.frameIn (R.live_of_client (R.client_of_on (t := u) (by rw [hpc]; rfl)))
  unfold nonzero hits
  refine total_le_card (fun u => match s.pc u with | .addFetch q _ => s.slot q | _ => 0)
    (fun u => ?_) (fun u hu => ?_) fun u w hu hw heq => ?_
  · cases s.pc u <;> simp [Pc.adding]
    split <;> omega
  · obtain ⟨q, fresh, hpc, hc⟩ := hat hu
    have hdue : 0 < s.due q := by
      rw [R.due_sole (t := u) (by rw [hpc]; rfl), hpc]
      simp [Pc.weight]
    rw [← B.entry q (hin hpc) hc] at hdue
    rw [Finset.mem_filter, Finset.mem_range, hpc]
    refine ⟨R.slot_lt (hin hpc), congrArg some (decide_eq_true fun h0 => ?_)⟩
    rw [h0] at hdue
    exact Nat.lt_irrefl 0 hdue
  · obtain ⟨q, fresh, hpc, hc⟩ := hat hu
    obtain ⟨q', fresh', hpc', hc'⟩ := hat hw
    rw [hpc, hpc'] at heq
    have hqq : q = q' := R.slot_inj (hin hpc) (hin hpc') (hc.trans hc'.symm) heq
    subst hqq
    exact ((R.sole w q (by rw [hpc']; rfl)).2 u (by rw [hpc]; rfl))

/-! ## A step of one call

A call is on one frame, and its step leaves the other frames and the other chunks alone. `Does`
collects what such a step may not touch, and from it the sums of everything else follow at once;
what is left to check are the books of one chunk and of one frame. -/

variable [DecidableEq T]

/-- What a step of `t` in a call on `p` leaves alone. -/
structure Does (s s' : Cores T) (t : T) (p : Word) (v : Pc) : Prop where
  pc : s'.pc = Function.update s.pc t v
  before : (s.pc t).About p
  after : v.About p
  start : s'.machine.start = s.machine.start
  table : ∀ c, c ≠ s.chunk p → s'.table c = s.table c
  refs : ∀ c, c ≠ s.chunk p → s'.machine.refs c = s.machine.refs c
  mem : ∀ c a, c ≠ s.chunk p → s.table c = some a → s'.machine.mem a = s.machine.mem a
  spare : ∀ q, q ≠ p → s'.spare q = s.spare q
  borrowed : ∀ q, q ≠ p → s'.borrowed q = s.borrowed q
  increfs : ∀ q, q ≠ p → s'.increfs q = s.increfs q
  decrefs : ∀ q, q ≠ p → s'.decrefs q = s.decrefs q

namespace Does

/-- Only the entry of `p` has another value. -/
theorem due_off (D : Does s s' t p v) (hq : q ≠ p) : s'.due q = s.due q := by
  have hoff : ∀ {w : Pc}, w.About p → w.weight q = 0 := fun hw =>
    Pc.weight_off fun h => hq (hw q (Pc.frame_of_on h))
  unfold Cores.due
  rw [D.spare q hq, D.pc, total_keep ((hoff D.after).trans (hoff D.before).symm)]

theorem due_at (D : Does s s' t p v) : s'.due p + s.spare p + (s.pc t).weight p =
    s.due p + s'.spare p + v.weight p := by
  have hup := total_update (f := Pc.weight p) (x := s.pc) t v
  unfold Cores.due
  rw [D.pc]
  omega

/-- The references that no call has in hand are the same ones. -/
theorem due_moved (D : Does s s' t p v) (h : s'.spare p = s.spare p) :
    s'.due p + (s.pc t).weight p = s.due p + v.weight p := by
  have hat := D.due_at
  omega

theorem total_off (D : Does s s' t p v) {f : Pc → Nat} (hf : ∀ {w : Pc}, w.About p → f w = 0) :
    total f s'.pc = total f s.pc := by
  rw [D.pc, total_keep ((hf D.after).trans (hf D.before).symm)]

theorem total_at (D : Does s s' t p v) (f : Pc → Nat) :
    total f s'.pc + f (s.pc t) = total f s.pc + f v := by
  rw [D.pc]
  exact total_update t v

/-- Another chunk. -/
theorem chunk_off (D : Does s s' t p v) (S : Sums lo hi s) (hc : c ≠ s.chunk p) :
    Chunk lo hi s' c := by
  have hoff : ∀ {w : Pc}, w.About p → ∀ q, w.frame = some q → ridx s.machine.start q ≠ c := by
    intro w hw q hq hqc
    rw [hw q hq] at hqc
    exact hc hqc.symm
  refine (S.chunk c).congr D.start (D.table c hc) (D.refs c hc) (fun a ha => D.mem c a hc ha)
    (D.total_off fun hw => Pc.adding_off (hoff hw)) (D.total_off fun hw => Pc.dropping_off (hoff hw))
    fun q hq => D.due_off ?_
  rintro rfl
  exact hc hq.symm

/-- The books of the chunk of `p` and the books of `p` are what there is to check. -/
theorem sums (D : Does s s' t p v) (S : Sums lo hi s) (hchunk : Chunk lo hi s' (s.chunk p))
    (hkept : ∀ a, s'.table (s.chunk p) = some a →
      0 < s'.count (s.chunk p) ∨ ∃ u, (s'.pc u).relies s.machine.start (s.chunk p))
    (huses : ∀ u q a, (s'.pc u).uses = some (q, a) → s.chunk q = s.chunk p →
      s'.table (s.chunk p) = some a)
    (hbooks : s'.spare p + v.tied p + s'.decrefs p + s.increfs p =
      s.spare p + (s.pc t).tied p + s.decrefs p + s'.increfs p)
    (hborrowed : s'.borrowed p + (s.pc t).borrows p = s.borrowed p + v.borrows p)
    (hlent : 0 < s'.borrowed p → 0 < s'.spare p) : Sums lo hi s' where
  -- off the chunk of `p` and off `p` the step changes nothing
  chunk c := by
    by_cases hc : c = s.chunk p
    · rw [hc]
      exact hchunk
    · exact D.chunk_off S hc
  kept c a ha := by
    rw [D.start]
    by_cases hc : c = s.chunk p
    · rw [hc] at ha ⊢
      exact hkept a ha
    · rw [D.table c hc] at ha
      rcases S.kept c a ha with h | ⟨u, hu⟩
      · rw [count_congr (D.refs c hc)]
        exact .inl h
      · refine .inr ⟨u, ?_⟩
        have hut : u ≠ t := by
          rintro rfl
          have hbefore := D.before
          cases hw : s.pc u <;> rw [hw] at hu hbefore <;>
            first
              | exact absurd hu id
              | exact hc (hu.symm.trans (congrArg s.chunk (hbefore _ rfl)))
        rw [D.pc, Function.update_of_ne hut]
        exact hu
  uses u q a hu := by
    rw [chunk_congr D.start]
    by_cases hc : s.chunk q = s.chunk p
    · rw [hc]
      exact huses u q a hu hc
    · rw [D.table _ hc]
      refine S.uses u q a ?_
      have hut : u ≠ t := by
        rintro rfl
        rw [D.pc, Function.update_self] at hu
        exact hc (congrArg s.chunk (D.after q (Pc.frame_of_on (Pc.on_of_uses hu))))
      rwa [D.pc, Function.update_of_ne hut] at hu
  books q := by
    have hold := S.books q
    by_cases hq : q = p
    · rw [hq] at hold ⊢
      have hup := D.total_at (Pc.tied p)
      omega
    · have hoff : ∀ {w : Pc}, w.About p → w.tied q = 0 := fun hw =>
        Pc.tied_off fun h => hq (hw q h)
      rw [D.spare q hq, D.increfs q hq, D.decrefs q hq, D.total_off hoff]
      exact hold
  borrowed q := by
    have hold := S.borrowed q
    by_cases hq : q = p
    · rw [hq] at hold ⊢
      have hup := D.total_at (Pc.borrows p)
      omega
    · have hoff : ∀ {w : Pc}, w.About p → w.borrows q = 0 := fun hw =>
        Pc.borrows_off fun h => hq (hw q h)
      rw [D.borrowed q hq, D.total_off hoff]
      exact hold
  lent q := by
    by_cases hq : q = p
    · rw [hq]
      exact hlent
    · rw [D.borrowed q hq, D.spare q hq]
      exact S.lent q

/-- Another call uses the same table. -/
theorem uses_same (D : Does s s' t p v) (S : Sums lo hi s)
    (htable : s'.table (s.chunk p) = s.table (s.chunk p))
    (hv : ∀ q a, v.uses = some (q, a) → s.table (s.chunk q) = some a) {u : T}
    (hu : (s'.pc u).uses = some (q, a)) (hc : s.chunk q = s.chunk p) :
    s'.table (s.chunk p) = some a := by
  rw [htable, ← hc]
  rw [D.pc] at hu
  by_cases hut : u = t
  · rw [hut, Function.update_self] at hu
    exact hv q a hu
  · rw [Function.update_of_ne hut] at hu
    exact S.uses u q a hu

/-- The count is what it was, and the call relies on its table if it did. -/
theorem kept_same (D : Does s s' t p v) (S : Sums lo hi s)
    (htable : s'.table (s.chunk p) = s.table (s.chunk p))
    (hrefs : s'.machine.refs (s.chunk p) = s.machine.refs (s.chunk p))
    (hrelies : ∀ c, (s.pc t).relies s.machine.start c → v.relies s.machine.start c)
    (ha : s'.table (s.chunk p) = some a) : 0 < s'.count (s.chunk p) ∨
      ∃ u, (s'.pc u).relies s.machine.start (s.chunk p) := by
  rw [htable] at ha
  rw [count_congr hrefs]
  refine (S.kept _ a ha).imp_right fun ⟨u, hu⟩ => ⟨u, ?_⟩
  rw [D.pc]
  by_cases hut : u = t
  · rw [hut] at hu ⊢
    rw [Function.update_self]
    exact hrelies _ hu
  · rwa [Function.update_of_ne hut]

/-- The step changes no word and no table. -/
theorem sums_quiet (D : Does s s' t p v) (S : Sums lo hi s)
    (htable : s'.table (s.chunk p) = s.table (s.chunk p))
    (hrefs : s'.machine.refs (s.chunk p) = s.machine.refs (s.chunk p))
    (hmem : ∀ a, s.table (s.chunk p) = some a → s'.machine.mem a = s.machine.mem a)
    (hadd : ∀ c, v.adding s.machine.start c = (s.pc t).adding s.machine.start c)
    (hdrop : ∀ c, v.dropping s.machine.start c = (s.pc t).dropping s.machine.start c)
    (hrelies : ∀ c, (s.pc t).relies s.machine.start c → v.relies s.machine.start c)
    (huses : ∀ q a, v.uses = some (q, a) → s.table (s.chunk q) = some a)
    (hdue : s'.spare p + v.weight p = s.spare p + (s.pc t).weight p)
    (hbooks : s'.spare p + v.tied p + s'.decrefs p + s.increfs p =
      s.spare p + (s.pc t).tied p + s.decrefs p + s'.increfs p)
    (hborrowed : s'.borrowed p + (s.pc t).borrows p = s.borrowed p + v.borrows p)
    (hlent : 0 < s'.borrowed p → 0 < s'.spare p) : Sums lo hi s' := by
  have hsame : s'.due p = s.due p := by
    have hat := D.due_at
    omega
  refine D.sums S ?_ (fun a => D.kept_same S htable hrefs hrelies)
    (fun u q a => D.uses_same S htable huses) hbooks hborrowed hlent
  refine (S.chunk _).congr D.start htable hrefs hmem ?_ ?_ fun q _ => ?_
  · rw [D.pc, total_keep (hadd _)]
  · rw [D.pc, total_keep (hdrop _)]
  · by_cases hq : q = p
    · rw [hq, hsame]
    · exact D.due_off hq

/-- The word of the chunk is written. -/
theorem recount (D : Does s s' t p v) (B : Tabled lo hi s (s.chunk p) a)
    (hmem : s'.machine.mem a = s.machine.mem a)
    (hword : (s'.machine.refs (s.chunk p)).toNat = a.toNat + s'.count (s.chunk p))
    (hcount : s'.count (s.chunk p) + v.adding s.machine.start (s.chunk p) +
        (s.pc t).dropping s.machine.start (s.chunk p) = s.count (s.chunk p) +
      (s.pc t).adding s.machine.start (s.chunk p) + v.dropping s.machine.start (s.chunk p))
    (hdue : s'.spare p + v.weight p = s.spare p + (s.pc t).weight p) :
    Tabled lo hi s' (s.chunk p) a := by
  have hsame : ∀ q, s'.due q = s.due q := by
    intro q
    by_cases hq : q = p
    · have hat := D.due_at
      rw [hq]
      omega
    · exact D.due_off hq
  refine ⟨hword, ?_, fun q hq hc => ?_, fun r hr hne => ?_⟩
  · have hadd := D.total_at (Pc.adding s.machine.start (s.chunk p))
    have hdrop := D.total_at (Pc.dropping s.machine.start (s.chunk p))
    have hold := B.count
    rw [hmem, D.start]
    omega
  · rw [chunk_congr D.start] at hc
    rw [hmem, slot_congr D.start, hsame, B.entry q hq hc]
  · rw [hmem] at hne
    obtain ⟨q, hq, hc, hrq⟩ := B.rest r hr hne
    exact ⟨q, hq, (chunk_congr D.start q).trans hc, (slot_congr D.start q).trans hrq⟩

/-- The entry of `p` is written. -/
theorem rewritten (D : Does s s' t p v) (R : Roles lo hi s role)
    (B : Tabled lo hi s (s.chunk p) a) (hp : FrameIn lo hi p) {x : BitVec 16}
    (hrefs : s'.machine.refs (s.chunk p) = s.machine.refs (s.chunk p))
    (hmem : s'.machine.mem a = wr16 (s.machine.mem a) (s.slot p) x) (hx : x.toNat = s'.due p)
    (hcount : v.adding s.machine.start (s.chunk p) +
        (s.pc t).dropping s.machine.start (s.chunk p) +
        (if rd16 (s.machine.mem a) (s.slot p) ≠ 0#16 then 1 else 0) =
      (s.pc t).adding s.machine.start (s.chunk p) + v.dropping s.machine.start (s.chunk p) +
        if x ≠ 0#16 then 1 else 0) : Tabled lo hi s' (s.chunk p) a := by
  have hslot := R.slot_lt hp
  refine ⟨?_, ?_, fun q hq hc => ?_, fun r hr hne => ?_⟩
  · rw [count_congr hrefs, hrefs, B.word]
  · have hadd := D.total_at (Pc.adding s.machine.start (s.chunk p))
    have hdrop := D.total_at (Pc.dropping s.machine.start (s.chunk p))
    have hnonzero := nonzero_wr16 (s.machine.mem a) hslot x
    have hold := B.count
    rw [count_congr hrefs, hmem, D.start]
    omega
  · rw [chunk_congr D.start] at hc
    rw [hmem, slot_congr D.start, rd16_wr16]
    by_cases hqp : q = p
    · rw [hqp, if_pos rfl, hx]
    · rw [if_neg fun hs => hqp (R.slot_inj hq hp hc hs), D.due_off hqp, B.entry q hq hc]
  · rw [hmem, rd16_wr16] at hne
    by_cases hrp : r = s.slot p
    · exact ⟨p, hp, chunk_congr D.start p, (slot_congr D.start p).trans hrp.symm⟩
    · rw [if_neg hrp] at hne
      obtain ⟨q, hq, hc, hrq⟩ := B.rest r hr hne
      exact ⟨q, hq, (chunk_congr D.start q).trans hc, (slot_congr D.start q).trans hrq⟩

end Does

end OsKernel.PhysMem
