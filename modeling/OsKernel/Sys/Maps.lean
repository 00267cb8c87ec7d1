import OsKernel.Sys.Tables

/-!
# Descriptor tables over whole runs

A process has three maps from indices below ten to objects. The step lemma is the one of
`Sys/Tables.lean`; here are the invariant that numbers are used once, and what a descriptor
means from the call that made it to the call that gives it up.

The invariant (`Tidy`) is about numbers and not about handles. An object gets the next number
when it is made, and that it is a new one is what makes two descriptors different. A child has
the numbers of its parent in its tables, and these are the same objects; so `Tidy` says that
no number is twice in the tables of one process, and says nothing about two processes.

`Event.drops` is when a process gives a descriptor up. It has three cases, and they are those
that the source has: `close`, a `wait` that returns 0, and `execl` for a semaphore. Everything
else keeps the object in its slot, calls of other processes included, which is where the
induction over the run needs that a running process keeps its number (`ran_before`).

`Serves` is what a process gets for one call, in any reachable state: both that a call which
can be served is, with what it returns, and that one which cannot returns -1 and leaves the
tables. It is stated for every call at once, so that the theorem is one and has no clause for
the calls that a caller might make in between.
-/

set_option autoImplicit false

namespace OsKernel.Sys

open Lib Prog

variable {g : Config} {c : Call} {p : Nat} {k k' : Kernel}

/-! ## No object in two slots -/

/-- The slots of a process hold different objects, all made already. -/
structure Process.Tidy (proc : Process) (next : Nat) : Prop where
  below : ∀ {κ i o}, proc.table κ i = some o → o < next
  inj : ∀ {κ i κ' i' o}, proc.table κ i = some o → proc.table κ' i' = some o → κ = κ' ∧ i = i'

namespace Process.Tidy

variable {proc : Process} {next next' : Nat}

theorem mono (T : proc.Tidy next) (h : next ≤ next') : proc.Tidy next' :=
  ⟨fun ho => Nat.lt_of_lt_of_le (T.below ho) h, T.inj⟩

/-- Fewer slots in use. -/
theorem sub {proc' : Process} (T : proc.Tidy next)
    (h : ∀ {κ i o}, proc'.table κ i = some o → proc.table κ i = some o) : proc'.Tidy next :=
  ⟨fun ho => T.below (h ho), fun ho ho' => T.inj (h ho) (h ho')⟩

theorem life (T : proc.Tidy next) (l : Life) : ({ proc with life := l } : Process).Tidy next :=
  T.sub fun {κ} _ _ ho => by cases κ <;> exact ho

theorem reset (T : proc.Tidy next) : proc.reset.Tidy next := T.sub (reset_sub proc)

theorem clone (T : proc.Tidy next) : proc.clone.Tidy next := by
  refine T.sub fun {κ} _ _ ho => ?_
  cases κ with
  | fd => exact ho
  | pd => cases ho
  | sd => exact ho

theorem drop (T : proc.Tidy next) (κ : Kind) (i : Fin 10) : (proc.putSlot κ i none).Tidy next := by
  refine T.sub fun {κ'} j _ ho => ?_
  by_cases hslot : κ' = κ ∧ j = i
  · obtain ⟨rfl, rfl⟩ := hslot
    rw [putSlot_self] at ho
    cases ho
  · rwa [putSlot_ne proc none hslot] at ho

/-- A slot takes a new object. -/
theorem fill (T : proc.Tidy next) (κ : Kind) (i : Fin 10) {o : Nat} (hge : next ≤ o)
    (hlt : o < next') : (proc.putSlot κ i (some o)).Tidy next' := by
  have old : ∀ {κ' j o'}, (proc.putSlot κ i (some o)).table κ' j = some o' →
      (κ' = κ ∧ j = i) ∧ o' = o ∨ proc.table κ' j = some o' ∧ o' < next := by
    intro κ' j o' h
    by_cases hslot : κ' = κ ∧ j = i
    · obtain ⟨rfl, rfl⟩ := hslot
      rw [putSlot_self] at h
      exact .inl ⟨⟨rfl, rfl⟩, (Option.some.inj h).symm⟩
    · rw [putSlot_ne proc (some o) hslot] at h
      exact .inr ⟨h, T.below h⟩
  constructor
  · intro κ' j o' h
    rcases old h with ⟨-, rfl⟩ | ⟨-, hb⟩
    · exact hlt
    · omega
  · intro κ₁ j₁ κ₂ j₂ o' h₁ h₂
    rcases old h₁ with ⟨⟨rfl, rfl⟩, rfl⟩ | ⟨h₁, hb₁⟩
    · rcases old h₂ with ⟨⟨rfl, rfl⟩, -⟩ | ⟨-, hb₂⟩
      · exact ⟨rfl, rfl⟩
      · omega
    · rcases old h₂ with ⟨-, rfl⟩ | ⟨h₂, -⟩
      · omega
      · exact T.inj h₁ h₂

end Process.Tidy

/-- Numbers from `next` on are neither processes nor objects. -/
structure Tidy (procs : Nat → Process) (next : Nat) : Prop where
  proc : ∀ q, (procs q).Tidy next
  unborn : ∀ q, next ≤ q → (procs q).life = .unborn

namespace Tidy

variable {procs : Nat → Process} {next next' : Nat}

theorem lt_next (T : Tidy procs next) {q : Nat} (h : (procs q).life ≠ .unborn) : q < next :=
  Nat.lt_of_not_le fun hle => h (T.unborn q hle)

theorem update (T : Tidy procs next) {q : Nat} {proc : Process} (hle : next ≤ next')
    (hproc : proc.Tidy next') (hq : q < next') : Tidy (Function.update procs q proc) next' := by
  constructor
  · intro q'
    by_cases hqq : q' = q
    · subst hqq
      rwa [Function.update_self]
    · rw [Function.update_of_ne hqq]
      exact (T.proc q').mono hle
  · intro q' hq'
    have hqq : q' ≠ q := by omega
    rw [Function.update_of_ne hqq]
    exact T.unborn q' (Nat.le_trans hle hq')

theorem effect (T : Tidy procs next) (hp : p < next) {r : Word} {procs' : Nat → Process}
    (e : Effect c p procs next r procs' next') : Tidy procs' next' := by
  cases e with
  | same h => exact T
  | @made κ i hc hκ hfree =>
    exact T.update (Nat.le_succ _)
      ((T.proc p).fill κ i (Nat.le_refl _) (Nat.lt_succ_self _)) (Nat.lt_succ_of_lt hp)
  | @forked i procs' hc hfree hchild =>
    have hchildTidy : Tidy procs' (next + 1) := by
      rw [hchild]
      exact T.update (Nat.le_succ _) ((T.proc p).clone.mono (Nat.le_succ _)) (Nat.lt_succ_self _)
    exact hchildTidy.update (Nat.le_succ _)
      ((hchildTidy.proc p).fill .pd i (Nat.le_refl _) (Nat.lt_succ_self _)) (by omega)
  | @dropped κ i o hdes hnum hslot =>
    exact T.update (Nat.le_refl _) ((T.proc p).drop κ i) hp

theorem gone (T : Tidy procs next) (hp : p < next) {l : Leave} {procs' : Nat → Process}
    (hl : l ≠ .waits) (e : Gone c p procs next l procs' next') : Tidy procs' next' := by
  cases e with
  | ended _ _ hsub => exact T.update (Nat.le_refl _) ((T.proc p).sub hsub) hp
  | user _ => exact T.update (Nat.le_refl _) (T.proc p).reset hp
  | waits => exact absurd rfl hl

theorem reap (T : Tidy procs next) {q : Nat} (hq : (procs q).life = .stopped) :
    Tidy (Function.update procs q { procs q with life := .deleted }) next := by
  have hlt : q < next := T.lt_next (by rw [hq]; decide)
  exact T.update (Nat.le_refl _) ((T.proc q).life .deleted) hlt

end Tidy

/-! ## Steps -/

theorem effect_of_ok {r : Word} (h : sysHandler g c p k = .ok r k') :
    Effect c p k.procs k.next r k'.procs k'.next := by
  have hconf := sysHandler_confined (g := g) (c := c) (p := p) (k := k)
  rw [Confined, wp, h] at hconf
  exact hconf

theorem gone_of_error {l : Leave} (h : sysHandler g c p k = .error l k') :
    Gone c p k.procs k.next l k'.procs k'.next := by
  have hconf := sysHandler_confined (g := g) (c := c) (p := p) (k := k)
  rw [Confined, wp, h] at hconf
  exact hconf

/-- What a step does: a call that returned, a call that left, or the end of a TCB. -/
theorem step_cases {e : Event} (h : step g k e = some k') :
    (∃ p c, e = .call p c ∧ (k.procs p).life = .running ∧
      ((∃ r, sysHandler g c p k = .ok r k' ∧ Effect c p k.procs k.next r k'.procs k'.next) ∨
        ∃ l, l ≠ .waits ∧ sysHandler g c p k = .error l k' ∧
          Gone c p k.procs k.next l k'.procs k'.next)) ∨
    ∃ p, e = .reap p ∧ (k.procs p).life = .stopped ∧ k'.next = k.next ∧
      k'.procs = Function.update k.procs p { k.procs p with life := .deleted } := by
  cases e with
  | call p c =>
    dsimp only [step] at h
    split at h
    · rename_i hp
      refine .inl ⟨p, c, rfl, hp, ?_⟩
      cases hx : sysHandler g c p k with
      | ok r k₁ =>
        rw [hx] at h
        obtain rfl := Option.some.inj h
        exact .inl ⟨r, rfl, effect_of_ok hx⟩
      | error l k₁ =>
        rw [hx] at h
        refine .inr ⟨l, ?_⟩
        cases l <;> cases h
        all_goals exact ⟨by simp, rfl, gone_of_error hx⟩
    · cases h
  | reap p =>
    dsimp only [step] at h
    split at h
    · rename_i hp
      obtain rfl := Option.some.inj h
      exact .inr ⟨p, rfl, hp, rfl, rfl⟩
    · cases h

theorem Tidy.step {e : Event} (T : Tidy k.procs k.next) (h : step g k e = some k') :
    Tidy k'.procs k'.next := by
  rcases step_cases h with ⟨p, c, -, hp, hcall⟩ | ⟨p, -, hp, hnext, hprocs⟩
  · have hlt : p < k.next := T.lt_next (by rw [hp]; decide)
    rcases hcall with ⟨r, -, he⟩ | ⟨l, hl, -, hg⟩
    · exact T.effect hlt he
    · exact T.gone hlt hl hg
  · rw [hprocs, hnext]
    exact T.reap hp

theorem Tidy.init (root : Nat) : Tidy (Kernel.init root).procs (Kernel.init root).next := by
  have slot : ∀ {q κ i o}, ((Kernel.init root).procs q).table κ i = some o →
      κ = .fd ∧ i.val = o ∧ o < 3 := by
    intro q κ i o h
    cases κ with
    | fd =>
      simp only [Kernel.init, Process.table] at h
      by_cases hq : q = 0
      · rw [if_pos hq] at h
        by_cases hi : i.val < 3
        · rw [if_pos hi] at h
          obtain rfl := Option.some.inj h
          exact ⟨rfl, rfl, hi⟩
        · rw [if_neg hi] at h
          cases h
      · rw [if_neg hq] at h
        cases h
    | pd => cases h
    | sd => cases h
  constructor
  · intro q
    constructor
    · intro κ i o h
      exact (slot h).2.2
    · intro κ i κ' i' o h h'
      obtain ⟨rfl, hi, -⟩ := slot h
      obtain ⟨rfl, hi', -⟩ := slot h'
      exact ⟨rfl, Fin.ext (hi.trans hi'.symm)⟩
  · intro q hq
    have hne : q ≠ 0 := by
      rintro rfl
      exact Nat.not_succ_le_zero 2 hq
    simp [Kernel.init, hne]

theorem Tidy.runs {root : Nat} {es : List Event}
    (hr : runs (Sys.step g) (Kernel.init root) es = some k) : Tidy k.procs k.next :=
  runs_inv (fun k => Tidy k.procs k.next) (fun _ _ _ T _ h => T.step h) (.init root)
    (.of_forall (fun _ _ => trivial) es _) hr

/-! ## A descriptor keeps its object

Over any run, a descriptor that its process does not give up names the same object. What other
processes do cannot change that, since each call changes the tables of its own process only, but
for a child's, which are new. -/

/-- The process gives the descriptor up: it closes it, or waits for it to the end, or goes on to
another program and loses its semaphores. -/
def Event.drops (g : Config) (p : Nat) (κ : Kind) (des : Word) (k : Kernel) : Event → Prop
  | .call q c => q = p ∧
      ((c.num = 6#32 ∨ c.num = 8#32) ∧ c.args 0 = des ∧ (∃ k', sysHandler g c p k = .ok 0#32 k') ∨
        κ = .sd ∧ c.num = 9#32 ∧ ∃ entry esp k', sysHandler g c p k = .error (.user entry esp) k')
  | .reap _ => False

/-- The slot of a running process still holds its object after a call. -/
theorem Effect.kept {procs procs' : Nat → Process} {next next' q : Nat} {κ : Kind} {i : Fin 10}
    {o : Nat} {r : Word} (e : Effect c q procs next r procs' next') (hp : p < next)
    (ho : (procs p).table κ i = some o)
    (hd : q = p → (c.num = 6#32 ∨ c.num = 8#32) → c.args 0 = name κ.tag i → r ≠ 0#32) :
    (procs' p).table κ i = some o := by
  have hfull : ∀ {t : Table} {j : Fin 10}, t.free = some j → t i = some o → i ≠ j := by
    intro t j hfree hi hij
    rw [hij, (Table.free_eq_some.mp hfree).1] at hi
    cases hi
  cases e with
  | same h => exact ho
  | @made κ' j hc hκ hfree =>
    by_cases hpq : p = q
    · subst hpq
      rw [Function.update_self, putSlot_ne, ho]
      rintro ⟨rfl, hij⟩
      exact hfull hfree ho hij
    · rw [Function.update_of_ne hpq, ho]
  | @forked j procs' hc hfree hchild =>
    have hold : procs' p = procs p := by
      rw [hchild, Function.update_of_ne (Nat.ne_of_lt hp)]
    by_cases hpq : p = q
    · subst hpq
      rw [Function.update_self, putSlot_ne, hold, ho]
      rintro ⟨rfl, hij⟩
      exact hfull hfree ho hij
    · rw [Function.update_of_ne hpq, hold, ho]
  | @dropped κ' j o' hdes hnum hslot =>
    by_cases hpq : p = q
    · subst hpq
      rw [Function.update_self, putSlot_ne, ho]
      rintro ⟨rfl, rfl⟩
      exact hd rfl (hnum.imp id And.left) hdes rfl
    · rw [Function.update_of_ne hpq, ho]

/-- The same after a call that did not return. -/
theorem Gone.kept {procs procs' : Nat → Process} {next next' q : Nat} {κ : Kind} {i : Fin 10}
    {o : Nat} {l : Leave} (e : Gone c q procs next l procs' next') (hl : l ≠ .waits)
    (ho : (procs p).table κ i = some o) (hp : (procs' p).life = .running)
    (hd : q = p → κ = .sd → c.num = 9#32 → ∀ entry esp, l ≠ .user entry esp) :
    (procs' p).table κ i = some o := by
  cases e with
  | ended _ hstop _ =>
    by_cases hpq : p = q
    · subst hpq
      rw [Function.update_self, hstop] at hp
      cases hp
    · rw [Function.update_of_ne hpq, ho]
  | user hnum =>
    by_cases hpq : p = q
    · subst hpq
      rw [Function.update_self]
      cases κ with
      | fd => exact ho
      | pd => exact ho
      | sd => exact absurd rfl (hd rfl rfl hnum _ _)
    · rw [Function.update_of_ne hpq, ho]
  | waits => exact absurd rfl hl

theorem Effect.next_le {procs procs' : Nat → Process} {next next' q : Nat} {r : Word}
    (e : Effect c q procs next r procs' next') : next ≤ next' := by
  cases e <;> omega

theorem Gone.next_eq {procs procs' : Nat → Process} {next next' q : Nat} {l : Leave}
    (e : Gone c q procs next l procs' next') (hl : l ≠ .waits) : next' = next := by
  cases e with
  | ended => rfl
  | user => rfl
  | waits => exact absurd rfl hl

theorem Effect.other {procs procs' : Nat → Process} {next next' q : Nat} {r : Word}
    (e : Effect c q procs next r procs' next') (hlt : p < next) (hpq : p ≠ q) :
    procs' p = procs p := by
  cases e with
  | same => rfl
  | made => rw [Function.update_of_ne hpq]
  | forked _ _ hchild =>
    rw [Function.update_of_ne hpq, hchild, Function.update_of_ne (Nat.ne_of_lt hlt)]
  | dropped => rw [Function.update_of_ne hpq]

theorem Gone.other {procs procs' : Nat → Process} {next next' q : Nat} {l : Leave}
    (e : Gone c q procs next l procs' next') (hl : l ≠ .waits) (hpq : p ≠ q) :
    procs' p = procs p := by
  cases e with
  | ended => rw [Function.update_of_ne hpq]
  | user => rw [Function.update_of_ne hpq]
  | waits => exact absurd rfl hl

/-- A process that runs has run before. -/
theorem ran_before {e : Event} (h : step g k e = some k') (hlt : p < k.next)
    (hp : (k'.procs p).life = .running) : (k.procs p).life = .running := by
  rcases step_cases h with ⟨q, c, -, hq, hcall⟩ | ⟨q, -, hq, -, hprocs⟩
  · by_cases hpq : p = q
    · rw [hpq]
      exact hq
    · rcases hcall with ⟨r, -, he⟩ | ⟨l, hl, -, hg⟩
      · rwa [he.other hlt hpq] at hp
      · rwa [hg.other hl hpq] at hp
  · rw [hprocs] at hp
    by_cases hpq : p = q
    · rw [hpq, Function.update_self] at hp
      cases hp
    · rwa [Function.update_of_ne hpq] at hp

theorem slot_kept {e : Event} {κ : Kind} {i : Fin 10} {o : Nat} (h : step g k e = some k')
    (hd : ¬e.drops g p κ (name κ.tag i) k) (hlt : p < k.next)
    (ho : (k.procs p).table κ i = some o) (hp : (k'.procs p).life = .running) :
    (k'.procs p).table κ i = some o := by
  rcases step_cases h with ⟨q, c, rfl, hq, hcall⟩ | ⟨q, -, hq, -, hprocs⟩
  · rcases hcall with ⟨r, hr, he⟩ | ⟨l, hl, hx, hg⟩
    · refine he.kept hlt ho fun hqp hnum hdes hzero => hd ?_
      subst hqp hzero
      exact ⟨rfl, .inl ⟨hnum, hdes, k', hr⟩⟩
    · refine hg.kept hl ho hp fun hqp hκ hnum entry esp hl => hd ?_
      subst hqp hl
      exact ⟨rfl, .inr ⟨hκ, hnum, entry, esp, k', hx⟩⟩
  · have hpq : p ≠ q := by
      rintro rfl
      rw [hprocs, Function.update_self] at hp
      cases hp
    rw [hprocs, Function.update_of_ne hpq, ho]

/-- Over any run in which the process does not give the descriptor up. -/
theorem lookup_kept {κ : Kind} {des : Word} {o : Nat} (hlt : p < k.next)
    (ho : k.lookup p κ des = some o) {es : List Event}
    (hkeep : RunOk (step g) (fun k e => ¬e.drops g p κ des k) k es)
    (hr : runs (step g) k es = some k') (hp : (k'.procs p).life = .running) :
    k'.lookup p κ des = some o := by
  obtain ⟨i, rfl, hi⟩ := (Table.get_eq_some κ.isTag).mp ho
  have hinv := @runs_inv _ _ (step g) _
    (fun k => p < k.next ∧ ((k.procs p).life = .running → (k.procs p).table κ i = some o))
    (fun s e s' hs hd h => ?_) _ _ _ ⟨hlt, fun _ => hi⟩ hkeep hr
  · exact (Table.get_eq_some κ.isTag).mpr ⟨i, rfl, hinv.2 hp⟩
  · refine ⟨?_, fun hp' => ?_⟩
    · rcases step_cases h with ⟨q, c, -, hq, hcall⟩ | ⟨q, -, -, hnext, -⟩
      · rcases hcall with ⟨r, -, he⟩ | ⟨l, hl, -, hg⟩
        · exact Nat.lt_of_lt_of_le hs.1 he.next_le
        · rw [hg.next_eq hl]
          exact hs.1
      · rw [hnext]
        exact hs.1
    · exact slot_kept h hd hs.1 (hs.2 (ran_before h hs.1 hp')) hp'

/-! ## One call -/

theorem lookup_unique (T : Tidy k.procs k.next) {κ κ' : Kind} {des des' : Word} {o : Nat}
    (h : k.lookup p κ des = some o) (h' : k.lookup p κ' des' = some o) : κ = κ' ∧ des = des' := by
  obtain ⟨i, rfl, hi⟩ := (Table.get_eq_some κ.isTag).mp h
  obtain ⟨i', rfl, hi'⟩ := (Table.get_eq_some κ'.isTag).mp h'
  obtain ⟨rfl, rfl⟩ := (T.proc p).inj hi hi'
  exact ⟨rfl, rfl⟩

theorem Effect.of_failed {procs procs' : Nat → Process} {next next' : Nat} {r : Word}
    (e : Effect c p procs next r procs' next') (hr : r = failed) : procs' = procs := by
  cases e with
  | same => rfl
  | @made κ i _ _ _ => exact absurd hr (name_ne_failed κ.isTag i)
  | @forked i _ _ _ _ => exact absurd hr (name_ne_failed isTag_pd i)
  | dropped => exact absurd hr (by decide)

theorem Call.creates_inj {κ κ' : Kind} (h : c.creates κ) (h' : c.creates κ') : κ = κ' := by
  cases κ <;> cases κ' <;> first | rfl | exact absurd (h.symm.trans h') (by decide)

/-- A call that made a descriptor has put a new object into the lowest empty slot. -/
theorem Effect.created {procs procs' : Nat → Process} {next next' : Nat} {r : Word} {κ : Kind}
    (e : Effect c p procs next r procs' next') (hc : c.creates κ) (hr : r ≠ failed) :
    ∃ i o, r = name κ.tag i ∧ ((procs p).table κ).free = some i ∧ next ≤ o ∧
      (procs' p).table κ i = some o := by
  cases e with
  | same h => exact absurd (h κ hc) hr
  | @made κ' i hc' hκ hfree =>
    obtain rfl := Call.creates_inj hc' hc
    refine ⟨i, next, rfl, hfree, Nat.le_refl _, ?_⟩
    rw [Function.update_self, putSlot_self]
  | @forked i procs' hc' hfree hchild =>
    obtain rfl := Call.creates_inj hc' hc
    refine ⟨i, next + 1, rfl, hfree, Nat.le_succ _, ?_⟩
    rw [Function.update_self]
    exact putSlot_self (procs' p) .pd i (some (next + 1))
  | @dropped κ' i o hdes hnum hslot =>
    rcases hnum with hn | ⟨hn, -⟩
    · exact absurd hc (Call.not_creates hn (by decide) (by decide) (by decide) κ)
    · exact absurd hc (Call.not_creates hn (by decide) (by decide) (by decide) κ)

/-- `fork` has made a child. -/
theorem Effect.child {procs procs' : Nat → Process} {next next' : Nat} {r : Word}
    (e : Effect c p procs next r procs' next') (hc : c.num = 2#32) (hr : r ≠ failed)
    (hlt : p < next) : procs' next = (procs p).clone := by
  cases e with
  | same h => exact absurd (h .pd hc) hr
  | made hc' hκ _ =>
    have hpd : c.creates .pd := hc
    exact absurd (Call.creates_inj hc' hpd) hκ
  | @forked i procs' _ _ hchild =>
    rw [Function.update_of_ne (Nat.ne_of_gt hlt), hchild, Function.update_self]
  | dropped _ hnum _ =>
    rcases hnum with hn | ⟨hn, -⟩
    · exact absurd (hn.symm.trans hc) (by decide)
    · exact absurd (hn.symm.trans hc) (by decide)

theorem Gone.reset {procs procs' : Nat → Process} {next next' : Nat} {entry esp : Word}
    (e : Gone c p procs next (.user entry esp) procs' next') : procs' p = (procs p).reset := by
  cases e with
  | ended hl => exact absurd hl (by simp)
  | user => exact Function.update_self ..

/-- A descriptor that is not the name of a slot in use. -/
theorem lookup_eq_none {κ : Kind} {des : Word}
    (h : ∀ i, des = name κ.tag i → (k.procs p).table κ i = none) : k.lookup p κ des = none := by
  cases hl : k.lookup p κ des with
  | none => rfl
  | some o =>
    obtain ⟨i, hdes, hi⟩ := (Table.get_eq_some κ.isTag).mp hl
    rw [h i hdes] at hi
    cases hi

/-! ## The tables are maps

All the clauses about one call, and the theorem that puts them together with those about runs. The
run at its end makes each of the six calls. -/

/-- What `p` gets for the call `c` in the state `k`. Where a call may be ended at an address that
the page fault handler refuses, it says which addresses those are. -/
structure Serves (g : Config) (c : Call) (p : Nat) (k : Kernel) : Prop where
  /-- A call that returns `-1` leaves all processes and their tables as they were. -/
  failure : ∀ {k'}, sysHandler g c p k = .ok failed k' → k'.procs = k.procs
  /-- A new descriptor is the tag with the lowest empty index, and under it there is an object that
  no slot has held. -/
  made : ∀ {κ r k'}, c.creates κ → sysHandler g c p k = .ok r k' → r ≠ failed →
    ∃ i o, r = name κ.tag i ∧ (k.procs p).table κ i = none ∧
      (∀ j < i, (k.procs p).table κ j ≠ none) ∧ k'.lookup p κ r = some o ∧
      ∀ q κ' j, (k.procs q).table κ' j ≠ some o
  /-- A child has the files and semaphores of its parent and no children. -/
  child : c.num = 2#32 → ∀ {r k'}, sysHandler g c p k = .ok r k' → r ≠ failed →
    ∃ q, (k.procs q).life = .unborn ∧ (k'.procs q).life = .running ∧
      (k'.procs q).fdt = (k.procs p).fdt ∧ (k'.procs q).sdt = (k.procs p).sdt ∧
      ∀ i, (k'.procs q).pdt i = none
  /-- `fork` returns, with `-1` if and only if the table is full. -/
  fork : c.num = 2#32 → wp (sysHandler g c p)
    (fun r _ => r = failed ↔ ∀ i, (k.procs p).pdt i ≠ none) (fun _ _ => False) k
  /-- So does `sem`, unless its argument cannot be read. -/
  sem : c.num = 3#32 → wp (sysHandler g c p)
    (fun r _ => r = failed ↔ ∀ i, (k.procs p).sdt i ≠ none)
    (fun l _ => l = .killed ∧ (∃ i, (k.procs p).sdt i = none) ∧ c.refusesOne (argBytes c 0)) k
  /-- `open` gives `-1` if and only if the file is not there or the table is full. -/
  openFile : c.num = 10#32 → wp (sysHandler g c p)
    (fun r _ => r = failed ↔ c.opened (k.procs p).cd = none ∨ ∀ i, (k.procs p).fdt i ≠ none)
    (fun l _ => l = .killed ∧
      (c.refusesOne (argBytes c 0) ∨ c.refusesOne (strBytes c (c.args 0)))) k
  /-- `close` of a slot in use returns 0 and empties that slot alone. -/
  close : c.num = 6#32 → ∀ {κ i o}, c.args 0 = name κ.tag i → (k.procs p).table κ i = some o →
    wp (sysHandler g c p)
      (fun r k' => r = 0#32 ∧
        k'.procs = Function.update k.procs p ((k.procs p).putSlot κ i none))
      (fun l _ => l = .killed ∧ c.refusesOne (argBytes c 0)) k
  /-- `wait` for a child does the same once the child has a status, and sleeps before. -/
  wait : c.num = 8#32 → ∀ {i o}, c.args 0 = name typePd i → (k.procs p).pdt i = some o →
    wp (sysHandler g c p)
      (fun r k' => r = 0#32 ∧
        k'.procs = Function.update k.procs p ((k.procs p).putSlot .pd i none))
      (fun l _ => l = .waits ∧ k.status (k.child o) = none ∨
        l = .killed ∧ (c.refusesOne (argBytes c 0) ∨ c.refusesOne (argBytes c 1) ∨
          c.refusesOne (span (c.args 1) 4))) k
  /-- A call on a descriptor that is not the name of a slot in use returns `-1`. -/
  missing : ∀ {κ}, c.uses κ →
    (∀ κ i, c.uses κ → c.args 0 = name κ.tag i → (k.procs p).table κ i = none) →
    wp (sysHandler g c p) (fun r k' => r = failed ∧ k'.procs = k.procs)
      (fun l _ => l = .killed ∧ ∃ i, c.refusesOne (argBytes c i)) k
  /-- A program that is there replaces that of the caller, who keeps his files and children and
  loses his semaphores; without one `execl` returns `-1`. -/
  execl : c.num = 9#32 → wp (sysHandler g c p)
    (fun r k' => r = failed ∧ c.opened (k.procs p).cd >>= c.image = none ∧ k'.procs = k.procs)
    (fun l k' => l = .killed ∧ (∃ a, c.refused a = true) ∨
      ∃ image esp, c.opened (k.procs p).cd >>= c.image = some image ∧
        l = .user image.entry esp ∧ (k'.procs p).fdt = (k.procs p).fdt ∧
        (k'.procs p).pdt = (k.procs p).pdt ∧ ∀ i, (k'.procs p).sdt i = none) k

theorem Tidy.serves (T : Tidy k.procs k.next) (hp : (k.procs p).life = .running) (c : Call) :
    Serves g c p k where
  failure hx := (effect_of_ok hx).of_failed rfl
  made {κ r k'} hc hx hr := by
    obtain ⟨i, o, rfl, hfree, hge, hslot⟩ := (effect_of_ok hx).created hc hr
    obtain ⟨hnone, hlow⟩ := Table.free_eq_some.mp hfree
    refine ⟨i, o, rfl, hnone, hlow, (Table.get_name κ.isTag).trans hslot, fun q κ' j hq => ?_⟩
    have hbelow := (T.proc q).below hq
    omega
  child hn {r k'} hx hr := by
    have hlt : p < k.next := T.lt_next (by rw [hp]; decide)
    have hchild := (effect_of_ok hx).child hn hr hlt
    refine ⟨k.next, T.unborn _ (Nat.le_refl _), ?_⟩
    rw [hchild]
    exact ⟨rfl, rfl, rfl, fun _ => rfl⟩
  fork := fork_serves
  sem := sem_serves
  openFile := open_serves
  close hn := close_serves hn
  wait hn := wait_serves hn
  missing huse hnone :=
    sysHandler_fails huse fun κ' hκ' => lookup_eq_none fun i => hnone κ' i hκ'
  execl hn := by
    apply wp_mono (execl_serves hn) (fun _ _ h => h)
    intro l k' h
    rcases h with hkilled | ⟨image, esp, himage, hl, hprocs⟩
    · exact .inl hkilled
    · refine .inr ⟨image, esp, himage, hl, ?_⟩
      rw [hprocs, Function.update_self]
      exact ⟨rfl, rfl, fun _ => rfl⟩

/-- In every reachable state and for every process that runs, a descriptor keeps its object in
every run in which the process does not give it up; two descriptors of the process name different
objects; and every call is served as the three maps have it. -/
theorem descriptors_are_maps {root : Nat} {es : List Event}
    (hr : runs (step g) (Kernel.init root) es = some k) (hp : (k.procs p).life = .running) :
    (∀ {κ des o}, k.lookup p κ des = some o → ∀ {es' k'},
      RunOk (step g) (fun k e => ¬e.drops g p κ des k) k es' → runs (step g) k es' = some k' →
      (k'.procs p).life = .running → k'.lookup p κ des = some o) ∧
    (∀ {κ des κ' des' o}, k.lookup p κ des = some o → k.lookup p κ' des' = some o →
      κ = κ' ∧ des = des') ∧
    ∀ c, Serves g c p k := by
  have T : Tidy k.procs k.next := .runs hr
  refine ⟨?_, fun h h' => lookup_unique T h h', T.serves hp⟩
  intro κ des o ho es' k' hkeep hr' hp'
  exact lookup_kept (T.lt_next (by rw [hp]; decide)) ho hkeep hr' hp'

/-- `wait(PD | 0, 0x80000000)`. -/
def waitCall : Call := plainCall 8 fun i => if i = 0 then name typePd 0 else 0x80000000

/-- `execl` of a file that is a program. -/
def execCall : Call := { plainCall 9 fun _ => 0 with image := fun _ => some ⟨0x80001000, []⟩ }

/-- A process opens a file, makes a semaphore and a child, and the child exits. -/
def tablesRun : List Event :=
  [.call 0 (plainCall 10 fun _ => 0), .call 0 (plainCall 3 fun _ => 1),
    .call 0 (plainCall 2 fun _ => 0), .call 5 (plainCall 0 fun _ => 7)]

/-- Then it can wait for the child, and keeps the semaphore; close the file; and go on to another
program, with the file and without the semaphore. -/
theorem descriptors_are_maps_run : ∃ k,
    runs (step ⟨0xfee00000, 0xfec00000⟩) (Kernel.init 2) tablesRun = some k ∧
    (∃ k', sysHandler ⟨0xfee00000, 0xfec00000⟩ waitCall 0 k = .ok 0 k' ∧
      k'.lookup 0 .pd (name typePd 0) = none ∧ k'.lookup 0 .sd (name typeSd 0) = some 4) ∧
    (∃ k', sysHandler ⟨0xfee00000, 0xfec00000⟩ (plainCall 6 fun _ => name typeFd 3) 0 k = .ok 0 k' ∧
      k'.lookup 0 .fd (name typeFd 3) = none) ∧
    ∃ esp k', sysHandler ⟨0xfee00000, 0xfec00000⟩ execCall 0 k =
        .error (.user 0x80001000 esp) k' ∧
      k'.lookup 0 .fd (name typeFd 3) = some 3 ∧ k'.lookup 0 .sd (name typeSd 0) = none := by
  have heval : (runs (step ⟨0xfee00000, 0xfec00000⟩) (Kernel.init 2) tablesRun).any
      (fun k => decide ((k.procs 0).life = .running ∧ (k.procs 0).fdt 3 = some 3 ∧
        (k.procs 0).pdt 0 = some 6 ∧ (k.procs 0).sdt 0 = some 4 ∧
        k.status (k.child 6) = some 7)) = true := by
    decide +kernel
  obtain ⟨k, hk, ht⟩ := (Option.any_eq_true _ _).mp heval
  obtain ⟨hp, hfd, hpd, hsd, hstatus⟩ := of_decide_eq_true ht
  obtain ⟨hkept, -, hserves⟩ :=
    @descriptors_are_maps ⟨0xfee00000, 0xfec00000⟩ 0 k 2 tablesRun hk hp
  have hsem : k.lookup 0 .sd (name typeSd 0) = some 4 := (Table.get_name isTag_sd).trans hsd
  refine ⟨k, hk, ?_, ?_, ?_⟩
  · have hw := (hserves waitCall).wait rfl rfl hpd
    obtain ⟨r, k', hx, rfl, hprocs⟩ := wp_returns (wp_mono hw (fun _ _ h => h) fun l _ h => by
      rcases h with ⟨-, hno⟩ | ⟨-, hno | hno | hno⟩
      · cases hstatus.symm.trans hno
      all_goals exact plainCall_allowed hno)
    have hrun : runs (step ⟨0xfee00000, 0xfec00000⟩) k [.call 0 waitCall] = some k' := by
      rw [runs, step, if_pos hp, hx]
      rfl
    have hsilent : RunOk (step ⟨0xfee00000, 0xfec00000⟩)
        (fun k e => ¬e.drops ⟨0xfee00000, 0xfec00000⟩ 0 .sd (name typeSd 0) k) k
        [.call 0 waitCall] := by
      refine ⟨?_, fun _ _ => trivial⟩
      -- what it gives up is the child
      rintro ⟨-, ⟨-, hdes, -⟩ | ⟨-, h9, -⟩⟩
      · exact absurd hdes (by decide)
      · exact absurd h9 (by decide)
    refine ⟨k', hx, ?_, hkept hsem hsilent hrun ?_⟩
    · rw [Kernel.lookup, hprocs, Function.update_self]
      exact (Table.get_name isTag_pd).trans (putSlot_self _ .pd 0 none)
    · rw [hprocs, Function.update_self, putSlot_life]
      exact hp
  · have hw := (hserves (plainCall 6 fun _ => name typeFd 3)).close rfl (κ := .fd) rfl hfd
    obtain ⟨r, k', hx, rfl, hprocs⟩ := wp_returns (wp_mono hw (fun _ _ h => h) fun l _ h =>
      plainCall_allowed h.2)
    refine ⟨k', hx, ?_⟩
    rw [Kernel.lookup, hprocs, Function.update_self]
    exact (Table.get_name isTag_fd).trans (putSlot_self _ .fd 3 none)
  · have hw := (hserves execCall).execl rfl
    unfold wp at hw
    cases hx : sysHandler ⟨0xfee00000, 0xfec00000⟩ execCall 0 k with
    | ok r k' =>
      rw [hx] at hw
      cases hw.2.1
    | error l k' =>
      rw [hx] at hw
      rcases hw with ⟨-, a, ha⟩ | ⟨image, esp, himage, rfl, hf, -, hs⟩
      · cases ha
      · cases himage
        refine ⟨esp, k', rfl, ?_, ?_⟩
        · rw [Kernel.lookup, Process.table, hf]
          exact (Table.get_name isTag_fd).trans hfd
        · rw [Kernel.lookup, Process.table]
          exact (Table.get_name isTag_sd).trans (hs 0)

end OsKernel.Sys
