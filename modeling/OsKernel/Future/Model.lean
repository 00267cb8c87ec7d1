import Mathlib.Logic.Function.Basic
import OsKernel.Lib.Blocking

/-!
# Waiting for a child

`Future` of `future.h` over one semaphore, and the calls of `Process::wait` on it. The setter
is the child, on its way out by `exit` or by a page fault; the getters are calls of `wait`
that have passed their tests. A step is one locked section of the semaphore, the `schedule`
after it, or one read or write of `value`.

A getter that fails the first test of `down()` is switched out and tests again; one in the
queue is let go by the `schedule` of the `up()` that took it out.

## The token

The semaphore begins with 0 and `set` adds one. `get` takes it, and puts it back, so the next
one can have it. So there is one token, and it does not exist before the value does: whoever
is between its `down()` and its `up()` comes after the setter's `up()`, and so after the
write. `Token` says where it is and `Inv` what the parties have seen. That is the whole proof;
nothing is asked about the order in which getters are served.

`value` is not initialised in the source. It is an argument of the first state, so the result
says that nobody reads it before the child has written.

## What it does not do

Any number of getters, of which the kernel has few: descriptors are inherited through fork, so
several processes may wait for the same child. A call of `wait` is one getter, and makes one
call. That it is on the right future is the descriptor table's business (`Sys/Model.lean`).
`wait` stores the status through a pointer of the process and empties the slot, and these are
two steps of the getter's own. As for the barriers, the ready queue is not here, and the
semaphore's sections are those of `Lib/Blocking.lean` and of `Threads/Sections.lean`.
-/

set_option autoImplicit false
set_option linter.unusedSectionVars false

namespace OsKernel.Future

open Lib

abbrev Word := BitVec 32

/-- Where the setter or a getter is. -/
inductive Pc (T : Type)
  /-- a call of `wait` that has not begun -/
  | idle
  /-- `set`, about to write `value` -/
  | write
  /-- at the first test of `down()` -/
  | down
  /-- switched out, at the second test -/
  | again
  /-- in the queue -/
  | waiting
  /-- out of the queue, in the hand of an `up()` -/
  | granted
  /-- at the section of `up()` -/
  | up
  /-- `up()` has taken `next` out of the queue -/
  | schedule (next : T)
  /-- about to read `value` -/
  | read
  /-- `get` has returned `v`; about to store it to `*status` -/
  | store (v : Word)
  /-- about to empty the slot of the descriptor -/
  | free
  /-- `wait` has returned `r` -/
  | returned (r : Word)
  | done
deriving DecidableEq

/-- `none` is the setter. -/
abbrev Party (G : Type) := Option G

structure State (G : Type) where
  count : BitVec 64
  waiting : List (Party G)
  value : Word
  pc : Party G → Pc (Party G)
  /-- `*status` -/
  status : G → Option Word
  /-- the slot of the descriptor is in use -/
  slot : G → Bool

variable {G : Type}

/-- Nobody has begun; `value` is not initialised. -/
def State.init (value : Word) : State G where
  count := 0
  waiting := []
  value := value
  pc
    | none => .write
    | some _ => .idle
  status _ := none
  slot _ := true

/-- What comes after `up()`. -/
def afterUp : Party G → Pc (Party G)
  | none => .done
  | some _ => .read

variable [DecidableEq G]

namespace State

def setPc (s : State G) (t : Party G) (p : Pc (Party G)) : State G :=
  { s with pc := Function.update s.pc t p }

/-- A test of `down()`; `no` is what happens if it fails. -/
def test (s : State G) (t : Party G) (no : State G) : State G :=
  if 0 < s.count then { s.setPc t .up with count := s.count - 1 } else no

def up (s : State G) (t : Party G) : State G :=
  match s.waiting with
  | [] => { s.setPc t (afterUp t) with count := s.count + 1 }
  | next :: rest => { (s.setPc next .granted).setPc t (.schedule next) with waiting := rest }

end State

/-- The next step of a party; `v` is the status of the child. `Process::wait` returns 0. -/
def step (v : Word) (s : State G) (t : Party G) : Option (State G) :=
  match s.pc t with
  | .idle => some (s.setPc t .down)
  | .write => some { s.setPc t .up with value := v }
  | .down => some (s.test t (s.setPc t .again))
  | .again => some (s.test t { s.setPc t .waiting with waiting := s.waiting ++ [t] })
  | .waiting => none
  | .granted => none
  | .up => some (s.up t)
  | .schedule next => some ((s.setPc next .up).setPc t (afterUp t))
  | .read => some (s.setPc t (.store s.value))
  | .store w =>
    match t with
    | none => none
    | some g => some { s.setPc t .free with status := Function.update s.status g (some w) }
  | .free =>
    match t with
    | none => none
    | some g => some { s.setPc t (.returned 0) with slot := Function.update s.slot g false }
  | .returned _ | .done => none

/-! ## Its semaphore -/

section Acts

variable {v value : Word} {s s' : State G} {t : Party G}

def State.semaphore (s : State G) : Semaphore (Party G) := ⟨s.count, s.waiting⟩

/-- What lies between the two states is acts on the semaphore. -/
def Acts (s s' : State G) : Prop :=
  ∃ acts, runs Semaphore.act s.semaphore acts = some s'.semaphore

theorem Acts.same (h : s'.semaphore = s.semaphore) : Acts s s' := ⟨[], by rw [h]; rfl⟩

theorem Acts.one {a : Semaphore.Act (Party G)} (h : s.semaphore.act a = some s'.semaphore) :
    Acts s s' := ⟨[a], by
  rw [runs_cons]
  exact ⟨_, h, rfl⟩⟩

theorem acts_test {no : State G} (hno : ¬0 < s.count → Acts s no) : Acts s (s.test t no) := by
  unfold State.test
  split
  · rename_i hpos
    exact .one (a := .take) (if_pos hpos)
  · rename_i hzero
    exact hno hzero

theorem acts_up : Acts s (s.up t) := by
  unfold State.up
  refine .one (a := .up) ?_
  cases hl : s.waiting with
  | nil =>
    have hempty : s.semaphore = ⟨s.count, []⟩ := congrArg (Semaphore.mk _) hl
    have hwaiting : (s.setPc t (afterUp t)).waiting = [] := hl
    rw [hempty]
    exact congrArg some (congrArg (Semaphore.mk _) hwaiting.symm)
  | cons next rest =>
    have hfull : s.semaphore = ⟨s.count, next :: rest⟩ := congrArg (Semaphore.mk _) hl
    rw [hfull]
    rfl

/-- A step acts on the semaphore, or leaves it alone. -/
theorem acts_step (h : step v s t = some s') : Acts s s' := by
  unfold step at h
  split at h
  case h_3 =>
    obtain rfl := Option.some.inj h
    exact acts_test fun _ => .same rfl
  case h_4 =>
    obtain rfl := Option.some.inj h
    exact acts_test fun hzero => .one (a := .join t) (if_neg hzero)
  case h_7 =>
    obtain rfl := Option.some.inj h
    exact acts_up
  case h_5 | h_6 | h_12 | h_13 => cases h
  case h_10 | h_11 =>
    split at h
    · cases h
    · obtain rfl := Option.some.inj h
      exact .same rfl
  all_goals
    obtain rfl := Option.some.inj h
    exact .same rfl

/-- In every run of the future there is a run of its semaphore. -/
theorem semaphore_runs {ts : List (Party G)}
    (hr : runs (step v) (State.init value) ts = some s) :
    ∃ acts, runs Semaphore.act ⟨0, []⟩ acts = some s.semaphore :=
  runs_acts State.semaphore (fun _ => True) (fun _ _ _ _ _ => trivial)
    (fun _ _ _ _ h => acts_step h) trivial hr

end Acts

/-! ## The invariant -/

/-- The party has the token: it is between its `down()` and its `up()`. -/
def Pc.holds {T : Type} : Pc T → Bool
  | .granted | .up => true
  | _ => false

/-- The getter has not got the token yet. -/
def Pc.before {T : Type} : Pc T → Bool
  | .idle | .down | .again | .waiting => true
  | _ => false

/-- Where the setter can be. -/
def Pc.sets {T : Type} : Pc T → Bool
  | .write | .up | .schedule _ | .done => true
  | _ => false

/-- Where a getter can be. -/
def Pc.gets {T : Type} : Pc T → Bool
  | .write | .done => false
  | _ => true

/-- What a getter has done with the value. -/
def Kept (v : Word) (pc : Pc (Party G)) (status : Option Word) (slot : Bool) : Prop :=
  match pc with
  | .store w => w = v ∧ status = none ∧ slot = true
  | .free => status = some v ∧ slot = true
  | .returned r => r = 0 ∧ status = some v ∧ slot = false
  | _ => status = none ∧ slot = true

/-- The one token: in the semaphore, or with one party. -/
inductive Token (s : State G) : Prop
  | inside (hcount : s.count = 1) (hnone : s.waiting = []) (hno : ∀ t, (s.pc t).holds = false)
  | outside (h : Party G) (hcount : s.count = 0) (hh : (s.pc h).holds = true)
      (honly : ∀ t, (s.pc t).holds = true → t = h)

structure Inv (v : Word) (s : State G) : Prop where
  setter : (s.pc none).sets = true
  getter : ∀ g, (s.pc (some g)).gets = true
  early : s.pc none = .write → s.count = 0 ∧ ∀ g, (s.pc (some g)).before = true
  token : s.pc none ≠ .write → s.value = v ∧ Token s
  nodup : s.waiting.Nodup
  queue : ∀ t, t ∈ s.waiting ↔ s.pc t = .waiting
  hand : ∀ {t h}, s.pc t = .schedule h → s.pc h = .granted
  oneHand : ∀ {t t' h h'}, s.pc t = .schedule h → s.pc t' = .schedule h' → t = t'
  kept : ∀ g, Kept v (s.pc (some g)) (s.status g) (s.slot g)

theorem Inv.init (v value : Word) : Inv v (State.init value : State G) := by
  constructor
  · rfl
  · exact fun _ => rfl
  · exact fun _ => ⟨rfl, fun _ => rfl⟩
  · exact fun h => absurd rfl h
  · exact List.nodup_nil
  · intro t
    cases t <;> simp [State.init]
  · intro t h ht
    cases t <;> cases ht
  · intro t t' h h' ht
    cases t <;> cases ht
  · exact fun _ => ⟨rfl, rfl⟩

/-! ## The steps

One lemma for each kind of step that a party can make, and `Inv.step` puts them together. Most
steps move one party and leave the queue alone; `Inv.alone` is what those have in common, with the
parts that differ as its hypotheses, and `Inv.moves` is its case in which the semaphore is not
touched either.

The invariant has two halves in time. Before the setter has written, the count is 0 and no getter
is past its `down()`; from then on there is one token, inside the semaphore or with one party that
stands at its `up()`. `Inv.write` is the step from the first half to the second. -/

section Steps

variable {v : Word} {s s' : State G} {t : Party G}

/-- A step of one party that leaves the queue alone. -/
theorem Inv.alone (I : Inv v s) {p : Pc (Party G)} (hpc : s'.pc = Function.update s.pc t p)
    (hqueue : s'.waiting = s.waiting) (hfrom : s.pc t ≠ .waiting ∧ s.pc t ≠ .granted)
    (hto : p ≠ .waiting ∧ ∀ h, p ≠ .schedule h) (hset : t = none → p.sets = true)
    (hget : ∀ g, t = some g → p.gets = true ∧ Kept v p (s'.status g) (s'.slot g))
    (hother : ∀ g, t ≠ some g → s'.status g = s.status g ∧ s'.slot g = s.slot g)
    (hearly : s'.pc none = .write → s'.count = 0 ∧ ∀ g, (s'.pc (some g)).before = true)
    (htoken : s'.pc none ≠ .write → s'.value = v ∧ Token s') : Inv v s' := by
  have hself : s'.pc t = p := by rw [hpc, Function.update_self]
  have hne : ∀ {x}, x ≠ t → s'.pc x = s.pc x := fun h => by rw [hpc, Function.update_of_ne h]
  refine ⟨?_, fun g => ?_, hearly, htoken, by rw [hqueue]; exact I.nodup, fun x => ?_,
    fun {x h} hx => ?_, fun {x x' h h'} hx hx' => ?_, fun g => ?_⟩
  · by_cases ht : t = none
    · rw [← ht, hself]
      exact hset ht
    · rw [hne (Ne.symm ht)]
      exact I.setter
  · by_cases ht : t = some g
    · rw [← ht, hself]
      exact (hget g ht).1
    · rw [hne (Ne.symm ht)]
      exact I.getter g
  · rw [hqueue]
    by_cases hx : x = t
    · rw [hx, hself, I.queue]
      exact ⟨fun h => absurd h hfrom.1, fun h => absurd h hto.1⟩
    · rw [hne hx]
      exact I.queue x
  · by_cases hxt : x = t
    · rw [hxt, hself] at hx
      exact absurd hx (hto.2 h)
    · rw [hne hxt] at hx
      have hgranted := I.hand hx
      have hht : h ≠ t := by
        rintro rfl
        exact hfrom.2 hgranted
      rw [hne hht, hgranted]
  · by_cases hxt : x = t
    · rw [hxt, hself] at hx
      exact absurd hx (hto.2 h)
    by_cases hxt' : x' = t
    · rw [hxt', hself] at hx'
      exact absurd hx' (hto.2 h')
    rw [hne hxt] at hx
    rw [hne hxt'] at hx'
    exact I.oneHand hx hx'
  · by_cases ht : t = some g
    · rw [← ht, hself]
      exact (hget g ht).2
    · rw [hne (Ne.symm ht), (hother g ht).1, (hother g ht).2]
      exact I.kept g

/-- The token stays where it is when a party without it moves on without it. -/
theorem Token.keep (k : Token s) (hcount : s'.count = s.count) (hqueue : s.waiting = [] →
      s.count = 1 → s'.waiting = []) (h : ∀ x, (s'.pc x).holds = (s.pc x).holds) : Token s' := by
  cases k with
  | inside hone hnone hno =>
    exact .inside (hcount.trans hone) (hqueue hnone hone) fun x => by rw [h x, hno x]
  | outside x hzero hx honly =>
    exact .outside x (hcount.trans hzero) (by rw [h x, hx]) fun y hy => honly y (by rw [← h y, hy])

theorem holds_update {p : Pc (Party G)} (h : p.holds = (s.pc t).holds) (x : Party G) :
    (Function.update s.pc t p x).holds = (s.pc x).holds := by
  by_cases hx : x = t
  · rw [hx, Function.update_self, h]
  · rw [Function.update_of_ne hx]

/-- A step within a call that does not touch the semaphore. -/
theorem Inv.moves (I : Inv v s) {p : Pc (Party G)} (hpc : s'.pc = Function.update s.pc t p)
    (hqueue : s'.waiting = s.waiting) (hcount : s'.count = s.count) (hvalue : s'.value = s.value)
    (hfrom : s.pc t ≠ .waiting ∧ s.pc t ≠ .granted ∧ s.pc t ≠ .write)
    (hto : p ≠ .waiting ∧ p ≠ .write ∧ ∀ h, p ≠ .schedule h)
    (hholds : p.holds = (s.pc t).holds) (hbefore : (s.pc t).before = true → p.before = true)
    (hset : t = none → p.sets = true)
    (hget : ∀ g, t = some g → p.gets = true ∧ Kept v p (s'.status g) (s'.slot g))
    (hother : ∀ g, t ≠ some g → s'.status g = s.status g ∧ s'.slot g = s.slot g) : Inv v s' := by
  have hwrite : s'.pc none = .write ↔ s.pc none = .write := by
    rw [hpc]
    by_cases ht : none = t
    · subst ht
      rw [Function.update_self]
      exact ⟨fun h => absurd h hto.2.1, fun h => absurd h hfrom.2.2⟩
    · rw [Function.update_of_ne ht]
  refine I.alone hpc hqueue ⟨hfrom.1, hfrom.2.1⟩ ⟨hto.1, hto.2.2⟩ hset hget hother
    (fun h => ?_) (fun h => ?_)
  · obtain ⟨hzero, hall⟩ := I.early (hwrite.mp h)
    refine ⟨hcount.trans hzero, fun g => ?_⟩
    rw [hpc]
    by_cases ht : some g = t
    · subst ht
      rw [Function.update_self]
      exact hbefore (hall g)
    · rw [Function.update_of_ne ht]
      exact hall g
  · obtain ⟨hv, k⟩ := I.token fun hs => h (hwrite.mpr hs)
    refine ⟨hvalue.trans hv, k.keep hcount (fun hnone _ => hqueue.trans hnone) fun x => ?_⟩
    rw [hpc]
    exact holds_update hholds x

/-- A test of `down()` that succeeds takes the token. -/
theorem Inv.pass (I : Inv v s) (hcount : 0 < s.count)
    (hpc : s.pc t = .down ∨ s.pc t = .again) :
    Inv v { s.setPc t .up with count := s.count - 1 } := by
  have hnot : s.pc none ≠ .write := by
    intro hw
    rw [(I.early hw).1] at hcount
    exact absurd hcount (by decide)
  obtain ⟨hv, k⟩ := I.token hnot
  obtain ⟨g, rfl⟩ : ∃ g, t = some g := by
    cases t with
    | none => rcases hpc with h | h <;> (have hs := I.setter; rw [h] at hs; cases hs)
    | some g => exact ⟨g, rfl⟩
  refine I.alone (t := some g) rfl rfl ?_ (by simp) (fun h => by cases h) (fun g' hg => ?_)
    (fun _ _ => ⟨rfl, rfl⟩) (fun h => absurd h ?_) fun _ => ⟨hv, ?_⟩
  · rcases hpc with h | h <;> simp [h]
  · obtain rfl := Option.some.inj hg
    have hk := I.kept g
    refine ⟨rfl, ?_⟩
    rcases hpc with h | h <;> (rw [h] at hk; exact hk)
  · simpa [State.setPc] using hnot
  · cases k with
    | inside hone hnone hno =>
      refine .outside (some g) ?_ ?_ fun x hx => ?_
      · show s.count - 1 = 0
        rw [hone]
        rfl
      · show (Function.update s.pc (some g) .up (some g)).holds = true
        rw [Function.update_self]
        rfl
      · by_contra hne
        have hold : (Function.update s.pc (some g) .up x).holds = true := hx
        rw [Function.update_of_ne hne, hno x] at hold
        cases hold
    | outside h hzero _ _ =>
      rw [hzero] at hcount
      exact absurd hcount (by decide)

theorem not_pos {n : BitVec 64} (h : ¬0 < n) : n = 0 := by
  rw [BitVec.lt_def] at h
  exact BitVec.toNat_inj.mp (Nat.eq_zero_of_not_pos h)

/-- The second test has failed: the party joins the queue. -/
theorem Inv.join (I : Inv v s) (hcount : ¬0 < s.count) (hpc : s.pc t = .again) :
    Inv v { s.setPc t .waiting with waiting := s.waiting ++ [t] } := by
  have hzero := not_pos hcount
  have hself : (s.setPc t .waiting).pc t = .waiting := Function.update_self ..
  have hne : ∀ {x}, x ≠ t → (s.setPc t .waiting).pc x = s.pc x := fun h => Function.update_of_ne h ..
  have hmem : t ∉ s.waiting := by
    rw [I.queue, hpc]
    simp
  obtain ⟨g, rfl⟩ : ∃ g, t = some g := by
    cases t with
    | none =>
      have hs := I.setter
      rw [hpc] at hs
      cases hs
    | some g => exact ⟨g, rfl⟩
  have hnone : (s.setPc (some g) .waiting).pc none = s.pc none := hne (by simp)
  refine ⟨?_, fun g' => ?_, fun h => ?_, fun h => ?_, ?_, fun x => ?_, fun {x h} hx => ?_,
    fun {x x' h h'} hx hx' => ?_, fun g' => ?_⟩
  · show ((s.setPc (some g) .waiting).pc none).sets = true
    rw [hnone]
    exact I.setter
  · show ((s.setPc (some g) .waiting).pc (some g')).gets = true
    by_cases hg : some g' = some g
    · rw [hg, hself]
      rfl
    · rw [hne hg]
      exact I.getter g'
  · refine ⟨hzero, fun g' => ?_⟩
    show ((s.setPc (some g) .waiting).pc (some g')).before = true
    by_cases hg : some g' = some g
    · rw [hg, hself]
      rfl
    · rw [hne hg]
      exact (I.early (hnone.symm.trans h)).2 g'
  -- the token is not in the count, or the test would not have failed
  · obtain ⟨hv, k⟩ := I.token fun hw => h (hnone.trans hw)
    refine ⟨hv, k.keep rfl (fun _ hone => ?_) (holds_update (by rw [hpc]; rfl))⟩
    rw [hzero] at hone
    exact absurd hone (by decide)
  · exact List.nodup_append.mpr ⟨I.nodup, by simp, fun x hx y hy hxy => hmem (by
      rw [List.mem_singleton] at hy
      rw [← hy, ← hxy]
      exact hx)⟩
  · show x ∈ s.waiting ++ [some g] ↔ (s.setPc (some g) .waiting).pc x = .waiting
    by_cases hx : x = some g
    · rw [hx, hself]
      simp
    · rw [hne hx, ← I.queue x]
      simp [hx]
  · have hx' : (s.setPc (some g) .waiting).pc x = .schedule h := hx
    have hxg : x ≠ some g := by
      rintro rfl
      rw [hself] at hx'
      cases hx'
    rw [hne hxg] at hx'
    have hgranted := I.hand hx'
    have hhg : h ≠ some g := by
      rintro rfl
      rw [hpc] at hgranted
      cases hgranted
    exact (hne hhg).trans hgranted
  · have hx₁ : (s.setPc (some g) .waiting).pc x = .schedule h := hx
    have hx₂ : (s.setPc (some g) .waiting).pc x' = .schedule h' := hx'
    have hxg : x ≠ some g := by
      rintro rfl
      rw [hself] at hx₁
      cases hx₁
    have hxg' : x' ≠ some g := by
      rintro rfl
      rw [hself] at hx₂
      cases hx₂
    rw [hne hxg] at hx₁
    rw [hne hxg'] at hx₂
    exact I.oneHand hx₁ hx₂
  · have hk := I.kept g'
    show Kept v ((s.setPc (some g) .waiting).pc (some g')) (s.status g') (s.slot g')
    by_cases hg : some g' = some g
    · obtain rfl := Option.some.inj hg
      rw [hpc] at hk
      rw [hself]
      exact hk
    · rw [hne hg]
      exact hk

/-- Where a party is after `up()`. -/
theorem afterUp_ok (I : Inv v s) (hpc : s.pc t = .up ∨ ∃ h, s.pc t = .schedule h) :
    (t = none → (afterUp t : Pc (Party G)).sets = true) ∧
    ∀ g, t = some g → (afterUp t : Pc (Party G)).gets = true ∧
      Kept v (afterUp t) (s.status g) (s.slot g) := by
  refine ⟨fun h => by rw [h]; rfl, fun g hg => ?_⟩
  subst hg
  have hk := I.kept g
  refine ⟨rfl, ?_⟩
  rcases hpc with h | ⟨h', h⟩ <;> (rw [h] at hk; exact hk)

theorem afterUp_shape (t : Party G) : (afterUp t : Pc (Party G)) ≠ .waiting ∧
    (afterUp t : Pc (Party G)) ≠ .write ∧ (∀ h, (afterUp t : Pc (Party G)) ≠ .schedule h) ∧
    (afterUp t : Pc (Party G)).holds = false := by
  cases t with
  | none => exact ⟨by simp [afterUp], by simp [afterUp], by simp [afterUp], rfl⟩
  | some g => exact ⟨by simp [afterUp], by simp [afterUp], by simp [afterUp], rfl⟩

/-- A party at `up()` has the token, and the value has been written. -/
theorem Inv.holder (I : Inv v s) (hpc : (s.pc t).holds = true) :
    s.pc none ≠ .write ∧ s.value = v ∧ s.count = 0 ∧ ∀ x, (s.pc x).holds = true → x = t := by
  have hnot : s.pc none ≠ .write := by
    intro hw
    cases t with
    | none =>
      rw [hw] at hpc
      cases hpc
    | some g =>
      have hb := (I.early hw).2 g
      cases hp : s.pc (some g) <;> rw [hp] at hpc hb <;> first | (cases hpc; done) | cases hb
  obtain ⟨hv, k⟩ := I.token hnot
  cases k with
  | inside _ _ hno =>
    rw [hno t] at hpc
    cases hpc
  | outside h hzero _ honly =>
    have hth := honly t hpc
    exact ⟨hnot, hv, hzero, fun x hx => (honly x hx).trans hth.symm⟩

theorem Inv.up (I : Inv v s) (hpc : s.pc t = .up) : Inv v (s.up t) := by
  obtain ⟨hnot, hv, hzero, honly⟩ := I.holder (t := t) (by rw [hpc]; rfl)
  obtain ⟨hset, hget⟩ := afterUp_ok I (.inl hpc)
  obtain ⟨hnw, hnwrite, hns, hnh⟩ := afterUp_shape t
  have hwrite : ∀ {f : Party G → Pc (Party G)} {p : Pc (Party G)}, f none ≠ .write → p ≠ .write →
      Function.update f t p none ≠ .write := by
    intro f p hf hp
    by_cases ht : none = t
    · subst ht
      rwa [Function.update_self]
    · rwa [Function.update_of_ne ht]
  unfold State.up
  cases hq : s.waiting with
  -- nobody waits, so the count takes the token
  | nil =>
    show Inv v { s.setPc t (afterUp t) with count := s.count + 1 }
    refine I.alone (t := t) (p := afterUp t) rfl rfl (by simp [hpc]) ⟨hnw, hns⟩ hset hget
      (fun _ _ => ⟨rfl, rfl⟩) (fun h => absurd h (hwrite hnot hnwrite)) fun _ => ⟨hv, ?_⟩
    refine .inside ?_ hq fun x => ?_
    · show s.count + 1 = 1
      rw [hzero]
      rfl
    · show (Function.update s.pc t (afterUp t) x).holds = false
      by_cases hx : x = t
      · rw [hx, Function.update_self, hnh]
      · rw [Function.update_of_ne hx]
        exact Bool.eq_false_iff.mpr fun h => hx (honly x h)
  -- the token goes to the first that waits, which is a getter: the setter never waits again
  | cons next rest =>
    have hnext : s.pc next = .waiting := (I.queue next).mp (by rw [hq]; exact List.mem_cons_self)
    have hne : next ≠ t := by
      rintro rfl
      rw [hpc] at hnext
      cases hnext
    obtain ⟨g, rfl⟩ : ∃ g, next = some g := by
      cases next with
      | none =>
        have hs := I.setter
        rw [hnext] at hs
        cases hs
      | some g => exact ⟨g, rfl⟩
    have hnodup := I.nodup
    rw [hq, List.nodup_cons] at hnodup
    have ht : ((s.setPc (some g) .granted).setPc t (.schedule (some g))).pc t =
        .schedule (some g) := Function.update_self ..
    have hg : ((s.setPc (some g) .granted).setPc t (.schedule (some g))).pc (some g) = .granted := by
      refine (Function.update_of_ne hne ..).trans ?_
      exact Function.update_self ..
    have hx : ∀ {x}, x ≠ t → x ≠ some g →
        ((s.setPc (some g) .granted).setPc t (.schedule (some g))).pc x = s.pc x :=
      fun h h' => (Function.update_of_ne h ..).trans (Function.update_of_ne h' ..)
    -- `t` is the only holder, so no other hands anything over
    have hnohand : ∀ {x h}, s.pc x ≠ .schedule h := by
      intro x h hs
      have hgranted := I.hand hs
      have hht := honly h (by rw [hgranted]; rfl)
      rw [hht, hpc] at hgranted
      cases hgranted
    have hhand : ∀ {x h}, ((s.setPc (some g) .granted).setPc t (.schedule (some g))).pc x =
        .schedule h → x = t ∧ h = some g := by
      intro x h hs
      by_cases hxt : x = t
      · subst hxt
        rw [ht] at hs
        exact ⟨rfl, (Pc.schedule.inj hs).symm⟩
      · by_cases hxg : x = some g
        · rw [hxg, hg] at hs
          cases hs
        · rw [hx hxt hxg] at hs
          exact absurd hs hnohand
    refine ⟨?_, fun g' => ?_, fun h => ?_, fun h => ⟨hv, ?_⟩, hnodup.2, fun x => ?_,
      fun {x h} hs => ?_, fun {x x' h h'} hs hs' => ?_, fun g' => ?_⟩
    · show (((s.setPc (some g) .granted).setPc t (.schedule (some g))).pc none).sets = true
      by_cases hnt : none = t
      · rw [hnt, ht]
        rfl
      · rw [hx hnt (by simp)]
        exact I.setter
    · show (((s.setPc (some g) .granted).setPc t (.schedule (some g))).pc (some g')).gets = true
      by_cases h₁ : some g' = t
      · rw [h₁, ht]
        rfl
      · by_cases h₂ : some g' = some g
        · rw [h₂, hg]
          rfl
        · rw [hx h₁ h₂]
          exact I.getter g'
    · refine absurd h (hwrite ?_ (by simp))
      show Function.update s.pc (some g) .granted none ≠ .write
      rwa [Function.update_of_ne (by simp)]
    · refine .outside (some g) hzero ?_ fun x hh => ?_
      · show (((s.setPc (some g) .granted).setPc t (.schedule (some g))).pc (some g)).holds = true
        rw [hg]
        rfl
      · have hh' : (((s.setPc (some g) .granted).setPc t (.schedule (some g))).pc x).holds =
            true := hh
        by_contra hxg
        by_cases hxt : x = t
        · rw [hxt, ht] at hh'
          cases hh'
        · rw [hx hxt hxg] at hh'
          exact hxt (honly x hh')
    · show x ∈ rest ↔ ((s.setPc (some g) .granted).setPc t (.schedule (some g))).pc x = .waiting
      by_cases hxt : x = t
      · rw [hxt, ht]
        refine ⟨fun hm => ?_, fun h => by cases h⟩
        have hw := (I.queue t).mp (by rw [hq]; exact List.mem_cons_of_mem _ hm)
        rw [hpc] at hw
        cases hw
      · by_cases hxg : x = some g
        · rw [hxg, hg]
          exact ⟨fun hm => absurd hm hnodup.1, fun h => by cases h⟩
        · rw [hx hxt hxg, ← I.queue x, hq, List.mem_cons]
          exact ⟨.inr, fun h => h.resolve_left hxg⟩
    · obtain ⟨-, rfl⟩ := hhand hs
      exact hg
    · rw [(hhand hs).1, (hhand hs').1]
    · have hk := I.kept g'
      show Kept v (((s.setPc (some g) .granted).setPc t (.schedule (some g))).pc (some g'))
        (s.status g') (s.slot g')
      by_cases h₁ : some g' = t
      · rw [h₁, hpc] at hk
        rw [h₁, ht]
        exact hk
      · by_cases h₂ : some g' = some g
        · rw [h₂, hnext] at hk
          rw [h₂, hg]
          exact hk
        · rw [hx h₁ h₂]
          exact hk

/-- The party taken out of the queue goes on. -/
theorem Inv.schedule {next : Party G} (I : Inv v s) (hpc : s.pc t = .schedule next) :
    Inv v ((s.setPc next .up).setPc t (afterUp t)) := by
  have hnext := I.hand hpc
  have hne : next ≠ t := by
    rintro rfl
    rw [hpc] at hnext
    cases hnext
  obtain ⟨hnot, hv, hzero, honly⟩ := I.holder (t := next) (by rw [hnext]; rfl)
  obtain ⟨hset, hget⟩ := afterUp_ok I (.inr ⟨next, hpc⟩)
  obtain ⟨hnw, hnwrite, hns, hnh⟩ := afterUp_shape t
  obtain ⟨g, rfl⟩ : ∃ g, next = some g := by
    cases next with
    | none =>
      have hs := I.setter
      rw [hnext] at hs
      cases hs
    | some g => exact ⟨g, rfl⟩
  have ht : ((s.setPc (some g) .up).setPc t (afterUp t)).pc t = afterUp t :=
    Function.update_self ..
  have hg : ((s.setPc (some g) .up).setPc t (afterUp t)).pc (some g) = .up :=
    (Function.update_of_ne hne ..).trans (Function.update_self ..)
  have hx : ∀ {x}, x ≠ t → x ≠ some g →
      ((s.setPc (some g) .up).setPc t (afterUp t)).pc x = s.pc x :=
    fun h h' => (Function.update_of_ne h ..).trans (Function.update_of_ne h' ..)
  -- there was one hand-over, and it is done
  have hnohand : ∀ {x h}, ((s.setPc (some g) .up).setPc t (afterUp t)).pc x ≠ .schedule h := by
    intro x h hs
    by_cases hxt : x = t
    · rw [hxt, ht] at hs
      exact hns h hs
    · by_cases hxg : x = some g
      · rw [hxg, hg] at hs
        cases hs
      · rw [hx hxt hxg] at hs
        exact hxt (I.oneHand hs hpc)
  have hnonewrite : ((s.setPc (some g) .up).setPc t (afterUp t)).pc none ≠ .write := by
    by_cases hnt : none = t
    · rw [hnt, ht]
      exact hnwrite
    · rw [hx hnt (by simp)]
      exact hnot
  refine ⟨?_, fun g' => ?_, fun h => absurd h hnonewrite, fun h => ⟨hv, ?_⟩, I.nodup,
    fun x => ?_, fun hs => absurd hs hnohand, fun hs => absurd hs hnohand, fun g' => ?_⟩
  · by_cases hnt : none = t
    · rw [hnt, ht]
      exact hset hnt.symm
    · rw [hx hnt (by simp)]
      exact I.setter
  · by_cases h₁ : some g' = t
    · rw [h₁, ht]
      exact (hget g' h₁.symm).1
    · by_cases h₂ : some g' = some g
      · rw [h₂, hg]
        rfl
      · rw [hx h₁ h₂]
        exact I.getter g'
  · refine .outside (some g) hzero (by rw [hg]; rfl) fun x hh => ?_
    by_contra hxg
    by_cases hxt : x = t
    · rw [hxt, ht, hnh] at hh
      cases hh
    · rw [hx hxt hxg] at hh
      exact hxg (honly x hh)
  · show x ∈ s.waiting ↔ _
    by_cases hxt : x = t
    · rw [hxt, ht, I.queue, hpc]
      exact ⟨fun h => by (cases h), fun h => absurd h hnw⟩
    · by_cases hxg : x = some g
      · rw [hxg, hg, I.queue, hnext]
        exact ⟨fun h => by (cases h), fun h => by (cases h)⟩
      · rw [hx hxt hxg]
        exact I.queue x
  · have hk := I.kept g'
    show Kept v (((s.setPc (some g) .up).setPc t (afterUp t)).pc (some g')) (s.status g')
      (s.slot g')
    by_cases h₁ : some g' = t
    · rw [h₁, ht]
      exact (hget g' h₁.symm).2
    · by_cases h₂ : some g' = some g
      · rw [h₂, hnext] at hk
        rw [h₂, hg]
        exact hk
      · rw [hx h₁ h₂]
        exact hk

/-- The child writes its status. -/
theorem Inv.write (I : Inv v s) (hpc : s.pc t = .write) :
    Inv v { s.setPc t .up with value := v } := by
  obtain rfl : t = none := by
    cases t with
    | none => rfl
    | some g =>
      have hg := I.getter g
      rw [hpc] at hg
      cases hg
  obtain ⟨hzero, hall⟩ := I.early hpc
  refine I.alone (t := none) (p := .up) rfl rfl (by simp [hpc]) (by simp) (fun _ => rfl)
    (fun g hg => by cases hg) (fun _ _ => ⟨rfl, rfl⟩) (fun h => ?_) fun _ => ⟨rfl, ?_⟩
  · have hup : Function.update s.pc none .up none = .write := h
    rw [Function.update_self] at hup
    cases hup
  · refine .outside none hzero ?_ fun x hx => ?_
    · show (Function.update s.pc none .up none).holds = true
      rw [Function.update_self]
      rfl
    · cases x with
      | none => rfl
      | some g =>
        have hg : (Function.update s.pc none .up (some g)).holds = true := hx
        rw [Function.update_of_ne (by simp)] at hg
        have hb := hall g
        cases hp : s.pc (some g) <;> rw [hp] at hg hb <;> first | (cases hg; done) | cases hb

theorem Inv.step (I : Inv v s) (h : step v s t = some s') : Inv v s' := by
  have getter : (s.pc t).sets = false → ∃ g, t = some g := by
    intro hs
    cases t with
    | none => rw [I.setter] at hs; cases hs
    | some g => exact ⟨g, rfl⟩
  unfold Future.step at h
  cases hpc : s.pc t with
  | idle =>
    simp only [hpc, Option.some.injEq] at h
    subst h
    obtain ⟨g, rfl⟩ := getter (by rw [hpc]; rfl)
    have hk := I.kept g
    rw [hpc] at hk
    exact I.moves (t := some g) (p := .down) rfl rfl rfl rfl (by simp [hpc]) (by simp)
      (by rw [hpc]; rfl) (fun _ => rfl) (fun h => by cases h)
      (fun g' hg => by cases hg; exact ⟨rfl, hk⟩) fun _ _ => ⟨rfl, rfl⟩
  | write =>
    simp only [hpc, Option.some.injEq] at h
    subst h
    exact I.write hpc
  | down =>
    simp only [hpc, Option.some.injEq] at h
    subst h
    unfold State.test
    split
    · rename_i hcount
      exact I.pass hcount (.inl hpc)
    · obtain ⟨g, rfl⟩ := getter (by rw [hpc]; rfl)
      have hk := I.kept g
      rw [hpc] at hk
      exact I.moves (t := some g) (p := .again) rfl rfl rfl rfl (by simp [hpc]) (by simp)
        (by rw [hpc]; rfl) (fun _ => rfl) (fun h => by cases h)
        (fun g' hg => by cases hg; exact ⟨rfl, hk⟩) fun _ _ => ⟨rfl, rfl⟩
  | again =>
    simp only [hpc, Option.some.injEq] at h
    subst h
    unfold State.test
    split
    · rename_i hcount
      exact I.pass hcount (.inr hpc)
    · rename_i hcount
      exact I.join hcount hpc
  | waiting => simp only [hpc, reduceCtorEq] at h
  | granted => simp only [hpc, reduceCtorEq] at h
  | up =>
    simp only [hpc, Option.some.injEq] at h
    subst h
    exact I.up hpc
  | schedule next =>
    simp only [hpc, Option.some.injEq] at h
    subst h
    exact I.schedule hpc
  | read =>
    simp only [hpc, Option.some.injEq] at h
    subst h
    obtain ⟨g, rfl⟩ := getter (by rw [hpc]; rfl)
    have hk := I.kept g
    rw [hpc] at hk
    -- who reads has had the token, so `set` has written
    have hvalue : s.value = v := by
      refine (I.token fun hw => ?_).1
      have hb := (I.early hw).2 g
      rw [hpc] at hb
      cases hb
    exact I.moves (t := some g) (p := .store s.value) rfl rfl rfl rfl (by simp [hpc]) (by simp)
      (by rw [hpc]; rfl) (fun hb => by rw [hpc] at hb; cases hb) (fun h => by cases h)
      (fun g' hg => by cases hg; exact ⟨rfl, hvalue, hk⟩) fun _ _ => ⟨rfl, rfl⟩
  | store w =>
    obtain ⟨g, rfl⟩ := getter (by rw [hpc]; rfl)
    simp only [hpc, Option.some.injEq] at h
    subst h
    have hk := I.kept g
    rw [hpc] at hk
    obtain ⟨rfl, -, hslot⟩ := hk
    exact I.moves (t := some g) (p := .free) rfl rfl rfl rfl (by simp [hpc]) (by simp)
      (by rw [hpc]; rfl) (fun hb => by rw [hpc] at hb; cases hb) (fun h => by cases h)
      (fun g' hg => by cases hg; exact ⟨rfl, Function.update_self .., hslot⟩)
      fun g' hg => ⟨Function.update_of_ne (fun h => hg (by rw [h])) .., rfl⟩
  | free =>
    obtain ⟨g, rfl⟩ := getter (by rw [hpc]; rfl)
    simp only [hpc, Option.some.injEq] at h
    subst h
    have hk := I.kept g
    rw [hpc] at hk
    exact I.moves (t := some g) (p := .returned 0) rfl rfl rfl rfl (by simp [hpc]) (by simp)
      (by rw [hpc]; rfl) (fun hb => by rw [hpc] at hb; cases hb) (fun h => by cases h)
      (fun g' hg => by cases hg; exact ⟨rfl, rfl, hk.1, Function.update_self ..⟩)
      fun g' hg => ⟨rfl, Function.update_of_ne (fun h => hg (by rw [h])) ..⟩
  | returned r => simp only [hpc, reduceCtorEq] at h
  | done => simp only [hpc, reduceCtorEq] at h

/-- The setter does not go back. -/
theorem past_step (I : Inv v s) (hpast : s.pc none ≠ .write ∧ s.pc none ≠ .up)
    (h : Future.step v s t = some s') : s'.pc none ≠ .write ∧ s'.pc none ≠ .up := by
  have hset := I.setter
  have other : ∀ {x p}, (x = none → p ≠ .write ∧ p ≠ .up) →
      Function.update s.pc x p none ≠ .write ∧ Function.update s.pc x p none ≠ .up := by
    intro x p hp
    by_cases hx : none = x
    · subst hx
      rw [Function.update_self]
      exact hp rfl
    · rwa [Function.update_of_ne hx]
  -- where only getters come, the step is not the setter's
  have getter : (s.pc t).sets = false → t ≠ none := by
    rintro hs rfl
    rw [hset] at hs
    cases hs
  have hafter : t = none → (afterUp t : Pc (Party G)) ≠ .write ∧ (afterUp t : Pc (Party G)) ≠ .up := by
    rintro rfl
    exact ⟨by simp [afterUp], by simp [afterUp]⟩
  unfold Future.step at h
  cases hpc : s.pc t with
  | idle =>
    simp only [hpc, Option.some.injEq] at h
    subst h
    exact other fun h => absurd h (getter (by rw [hpc]; rfl))
  | write =>
    cases t with
    | none => exact absurd hpc hpast.1
    | some g =>
      have hg := I.getter g
      rw [hpc] at hg
      cases hg
  | down =>
    simp only [hpc, Option.some.injEq] at h
    subst h
    unfold State.test
    split
    · exact other fun h => absurd h (getter (by rw [hpc]; rfl))
    · exact other fun h => absurd h (getter (by rw [hpc]; rfl))
  | again =>
    simp only [hpc, Option.some.injEq] at h
    subst h
    unfold State.test
    split
    · exact other fun h => absurd h (getter (by rw [hpc]; rfl))
    · exact other fun h => absurd h (getter (by rw [hpc]; rfl))
  | waiting => simp only [hpc, reduceCtorEq] at h
  | granted => simp only [hpc, reduceCtorEq] at h
  | up =>
    simp only [hpc, Option.some.injEq] at h
    subst h
    unfold State.up
    cases hq : s.waiting with
    | nil => exact other hafter
    | cons next rest =>
      have hnext : none ≠ next := by
        rintro rfl
        rw [(I.queue none).mp (by rw [hq]; exact List.mem_cons_self)] at hset
        cases hset
      show Function.update (Function.update s.pc next .granted) t (.schedule next) none ≠ _ ∧
        Function.update (Function.update s.pc next .granted) t (.schedule next) none ≠ _
      by_cases ht : none = t
      · subst ht
        rw [Function.update_self]
        exact ⟨by simp, by simp⟩
      · rwa [Function.update_of_ne ht, Function.update_of_ne hnext]
  | schedule next =>
    simp only [hpc, Option.some.injEq] at h
    subst h
    have hnext : none ≠ next := by
      rintro rfl
      rw [I.hand hpc] at hset
      cases hset
    show Function.update (Function.update s.pc next .up) t (afterUp t) none ≠ _ ∧
      Function.update (Function.update s.pc next .up) t (afterUp t) none ≠ _
    by_cases ht : none = t
    · subst ht
      rw [Function.update_self]
      exact hafter rfl
    · rwa [Function.update_of_ne ht, Function.update_of_ne hnext]
  | read =>
    simp only [hpc, Option.some.injEq] at h
    subst h
    exact other fun h => absurd h (getter (by rw [hpc]; rfl))
  | store w =>
    cases t with
    | none => rw [hpc] at hset; cases hset
    | some g =>
      simp only [hpc, Option.some.injEq] at h
      subst h
      exact other (x := some g) (p := .free) fun h => by cases h
  | free =>
    cases t with
    | none => rw [hpc] at hset; cases hset
    | some g =>
      simp only [hpc, Option.some.injEq] at h
      subst h
      exact other (x := some g) (p := .returned 0) fun h => by cases h
  | returned r => simp only [hpc, reduceCtorEq] at h
  | done => simp only [hpc, reduceCtorEq] at h

/-- Until the setter has been at its `up()`, no getter has got past its `down()`. -/
def NotYet (s : State G) : Prop :=
  s.pc none = .write ∨ s.pc none = .up → ∀ g, (s.pc (some g)).before = true

/-- The setter at its `write`. -/
theorem NotYet.write (I : Inv v s) (hpc : s.pc t = .write) :
    NotYet { s.setPc t .up with value := v } := by
  obtain rfl : t = none := by
    cases t with
    | none => rfl
    | some g =>
      have hg := I.getter g
      rw [hpc] at hg
      cases hg
  intro _ g
  show (Function.update s.pc none .up (some g)).before = true
  rw [Function.update_of_ne (by simp)]
  exact (I.early hpc).2 g

/-- A getter that goes on before the token is free. -/
theorem NotYet.getter {g : G} {p : Pc (Party G)} (N : NotYet s)
    (hpc : s'.pc = Function.update s.pc (some g) p) (hp : p.before = true) : NotYet s' := by
  intro hset x
  rw [hpc, Function.update_of_ne (by simp)] at hset
  rw [hpc]
  by_cases hx : some x = some g
  · rw [hx, Function.update_self, hp]
  · rw [Function.update_of_ne hx]
    exact N hset x

/-- The setter is past its `up()` and stays there. -/
theorem NotYet.past (hpast : s'.pc none ≠ .write ∧ s'.pc none ≠ .up) : NotYet s' :=
  fun h => absurd h (not_or.mpr hpast)

theorem NotYet.step (N : NotYet s) (I : Inv v s) (h : Future.step v s t = some s') : NotYet s' := by
  by_cases hearly : s.pc none = .write ∨ s.pc none = .up
  · have hzero : ¬0 < s.count := by
      have hcount : s.count = 0 := by
        rcases hearly with hw | hu
        · exact (I.early hw).1
        · exact (I.holder (t := none) (by rw [hu]; rfl)).2.2.1
      rw [hcount]
      decide
    cases t with
    | none =>
      unfold Future.step at h
      rcases hearly with hw | hu
      · simp only [hw, Option.some.injEq] at h
        subst h
        exact NotYet.write I hw
      · simp only [hu, Option.some.injEq] at h
        subst h
        refine NotYet.past ?_
        unfold State.up
        cases s.waiting with
        | nil =>
          show Function.update s.pc none .done none ≠ _ ∧ Function.update s.pc none .done none ≠ _
          rw [Function.update_self]
          exact ⟨by simp, by simp⟩
        | cons next rest =>
          show Function.update (s.setPc next .granted).pc none (.schedule next) none ≠ _ ∧
            Function.update (s.setPc next .granted).pc none (.schedule next) none ≠ _
          rw [Function.update_self]
          exact ⟨by simp, by simp⟩
    | some g =>
      have hb := N hearly g
      unfold Future.step at h
      cases hpc : s.pc (some g) with
      | idle =>
        simp only [hpc, Option.some.injEq] at h
        subst h
        exact N.getter (g := g) (p := .down) rfl rfl
      | down =>
        simp only [hpc, Option.some.injEq] at h
        subst h
        unfold State.test
        rw [if_neg hzero]
        exact N.getter (g := g) (p := .again) rfl rfl
      | again =>
        simp only [hpc, Option.some.injEq] at h
        subst h
        unfold State.test
        rw [if_neg hzero]
        exact N.getter (g := g) (p := .waiting) rfl rfl
      | waiting => simp only [hpc, reduceCtorEq] at h
      | _ => rw [hpc] at hb; cases hb
  · exact NotYet.past (past_step I (not_or.mp hearly) h)

end Steps

/-! ## Runs -/

/-- The setter has done its `set`, up to letting a getter go. -/
def State.isSet (s : State G) : Prop :=
  s.pc none ≠ .write ∧ s.pc none ≠ .up

/-- The getter has come back from its `get`. -/
def Pc.got {T : Type} : Pc T → Bool
  | .store _ | .free | .returned _ => true
  | _ => false

theorem reachable (v value : Word) {ts : List (Party G)} {s : State G}
    (h : runs (step v) (State.init value) ts = some s) : Inv v s ∧ NotYet s := by
  refine @runs_inv _ _ _ (fun _ _ => True) (fun s => Inv v s ∧ NotYet s)
    (fun s t s' I _ hs => ⟨I.1.step hs, I.2.step I.1 hs⟩) _ _ _ ⟨Inv.init v value, fun _ _ => rfl⟩
    (RunOk.of_forall (fun _ _ => trivial) ts _) h

/-- A parent learns exactly its child's exit status. -/
theorem get_learns_status (v value : Word) (ts : List (Party G)) (s : State G)
    (h : runs (step v) (State.init value) ts = some s) :
    (∀ g, (s.pc (some g)).got = true → s.isSet) ∧
    (∀ g w, s.pc (some g) = .store w → w = v) ∧
    (s.isSet → (∀ g, (s.pc (some g)).holds = false) →
      s.count = 1 ∧ s.waiting = [] ∧ ∀ g, s.pc (some g) ≠ .waiting) ∧
    (∀ g r, s.pc (some g) = .returned r → r = 0 ∧ s.status g = some v ∧ s.slot g = false) := by
  obtain ⟨I, N⟩ := reachable v value h
  refine ⟨fun g hgot => ?_, fun g w hw => ?_, fun hset hidle => ?_, fun g r hr => ?_⟩
  · refine not_or.mp fun hearly => ?_
    have hb := N hearly g
    cases hp : s.pc (some g) <;> rw [hp] at hgot hb <;> first | (cases hgot; done) | cases hb
  · have hk := I.kept g
    rw [hw] at hk
    exact hk.1
  · obtain ⟨-, k⟩ := I.token hset.1
    cases k with
    | inside hone hnone hno =>
      refine ⟨hone, hnone, fun g hg => ?_⟩
      have hmem := (I.queue (some g)).mpr hg
      rw [hnone] at hmem
      cases hmem
    | outside t _ ht _ =>
      exfalso
      cases t with
      | none =>
        have hs := I.setter
        cases hp : s.pc none with
        | up => exact hset.2 hp
        | _ => rw [hp] at ht hs; first | (cases ht; done) | cases hs
      | some g =>
        have hg := hidle g
        cases hp : s.pc (some g) <;> rw [hp] at ht hg <;> first | (cases ht; done) | cases hg
  · have hk := I.kept g
    rw [hr] at hk
    exact hk

/-- Two calls, one in the queue before the child exits, one after. -/
theorem get_learns_status_two : ∃ s : State Bool,
    (runs (step 7) (State.init 0) [some true, some true, some true, none, none, some false, none,
      some false, some true, some false, some false, some true, some false, some true,
      some true, some false] = some s ∧ s.pc (some true) = .returned 0) ∧
    s.status true = some 7 ∧ s.slot true = false := by
  obtain ⟨s, hr, hs⟩ : ∃ s : State Bool,
      runs (step 7) (State.init 0) [some true, some true, some true, none, none, some false, none,
        some false, some true, some false, some false, some true, some false, some true,
        some true, some false] = some s ∧ s.pc (some true) = .returned 0 := ⟨_, rfl, by decide⟩
  exact ⟨s, ⟨hr, hs⟩, ((get_learns_status 7 0 _ s hr).2.2.2 true 0 hs).2⟩

end OsKernel.Future
