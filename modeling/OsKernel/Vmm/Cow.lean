import OsKernel.Vmm.Access

/-!
# Copy-on-write is invisible

`Procs` is the kernel with its processes: a machine, and a page directory for each process.
`Eager` is what the processes are meant to see: a private memory for each, zero at first, that
fork copies. The two run the same actions, and `Refines` relates their states: what a process
finds at a user address through its directory is what its private memory holds there.

An access at a user address takes one page fault at most; that it needs more is `broken`, as
is any failed assertion. That there is no frame, or no counter, left is `starved`. An access
elsewhere in user mode ends the process; its directory remains until somebody destroys it.

## Why the specification is this one

`Eager` could hardly be simpler, and that is the point of it: it has no pages, no sharing and
no frames, and it cannot run out of anything. That fork copies the memory is its line for
`fork`. All that the implementation may do differently is to stop, with `starved`, and
`broken` is shown not to occur. The outputs are the words that the loads return, for each
action of every run, so the two cannot agree by having nothing to show.

An access may be one of user mode or of the kernel on behalf of the process, as in a `read`
into a buffer of its own. At user addresses they come to the same. Elsewhere user mode ends
the process, and what the kernel accesses is its own and no action here.

## What it does not do

A process runs by itself between two actions and is loaded when it runs: `accessing` sets CR3.
The translation buffer is not consulted (see `Vmm/Tlb.lean`), and a word is the unit of
access; bytes are in `Elf/Paged.lean`. Where memory goes beyond `0x80000000` the kernel's
identity map covers addresses that a process would call its own. These are not user addresses
here, and the last theorem shows what happens to a process that uses one.
-/

set_option autoImplicit false

namespace OsKernel.Vmm

open Lib Lib.Prog K PhysMem

/-! ## Tables of processes -/

/-- The processes by number; `next` is the first number that was never given out. -/
structure Table (α : Type) where
  proc : Nat → Option α
  next : Nat

namespace Table

variable {α : Type}

def empty : Table α := ⟨fun _ => none, 0⟩

def add (T : Table α) (x : α) : Table α := ⟨Function.update T.proc T.next (some x), T.next + 1⟩

def set (T : Table α) (pid : Nat) (x : Option α) : Table α :=
  ⟨Function.update T.proc pid x, T.next⟩

/-- The table with the entry of `pid` replaced, where `n` numbers have been given out. -/
def put (T : Table α) (pid : Nat) (x : Option α) (n : Nat) : Table α :=
  ⟨Function.update T.proc pid x, n⟩

theorem put_self (T : Table α) (pid : Nat) (x : Option α) (n : Nat) :
    (T.put pid x n).proc pid = x := Function.update_self ..

theorem put_ne (T : Table α) {pid q : Nat} (x : Option α) (n : Nat) (h : q ≠ pid) :
    (T.put pid x n).proc q = T.proc q := Function.update_of_ne h ..

theorem set_self {T : Table α} {pid : Nat} {x : Option α} (h : T.proc pid = x) :
    T.set pid x = T := by
  unfold set
  rw [← h, Function.update_eq_self]

end Table

/-! ## The two systems

The processes of the code share pages until one of them writes; those of the eager system have a
memory each, and `fork` copies it. Both are given the same actions, and what can be compared is
what loads return. An access of the code's system may fault, run the handler and be tried again,
or end the process; the eager system has nothing of this. -/

inductive Act
  | create
  | fork (pid : Nat)
  /-- A load of a word, by the process or by the kernel on its behalf. -/
  | load (pid : Nat) (va : Word) (user : Bool)
  /-- A store into a word; `f` gives the new value. -/
  | store (pid : Nat) (va : Word) (user : Bool) (f : Word → Word)
  | exec (pid : Nat) (discard : Nat → Bool)
  /-- `pid` is destroyed while the directory of `by_` is loaded, or the kernel's. -/
  | exit (pid : Nat) (by_ : Option Nat)

inductive Outcome (α : Type)
  | next (a : α)
  | starved
  | broken

def Outcome.ofStop {α : Type} : Stop → Outcome α
  | .noFrames => .starved
  | .refOverflow => .starved
  | _ => .broken

structure Proc where
  dir : Word
  running : Bool

structure Procs where
  machine : Machine
  table : Table Proc

namespace Procs

/-- The directory of a process that is running. -/
def running (P : Procs) (pid : Nat) : Option Word :=
  match P.table.proc pid with
  | some ⟨d, true⟩ => some d
  | _ => none

/-- The directory that is loaded while `pid` is destroyed. -/
def loaded (P : Procs) (pid : Nat) : Option Nat → Word
  | some q => if q = pid then P.machine.kpd else ((P.table.proc q).map Proc.dir).getD P.machine.kpd
  | none => P.machine.kpd

/-- An access of the process `pid`, and `k` once it has gone through. -/
def accessing (P : Procs) (pid : Nat) (d va : Word) (user write : Bool)
    (k : Machine → Procs × Option Word) : Outcome (Procs × Option Word) :=
  match (do setCR3 d; access va user write : K Bool) P.machine with
  | .ok true s => .next (k s)
  | .ok false _ => .broken
  | .error (.exit _) s => .next (⟨s, P.table.set pid (some ⟨d, false⟩)⟩, none)
  | .error e _ => .ofStop e

def step (c : Config) (P : Procs) : Act → Outcome (Procs × Option Word)
  | .create =>
    match newProcess P.machine with
    | .ok d s => .next (⟨s, P.table.add ⟨d, true⟩⟩, none)
    | .error e _ => .ofStop e
  | .fork pid =>
    match P.running pid with
    | none => .next (P, none)
    | some d =>
      match (do setCR3 d; clone d : K Word) P.machine with
      | .ok d' s => .next (⟨s, P.table.add ⟨d', true⟩⟩, none)
      | .error e _ => .ofStop e
  | .load pid va user =>
    match P.running pid with
    | none => .next (P, none)
    | some d =>
      if user = true ∨ c.UserAddr va then
        P.accessing pid d va user false fun s =>
          (⟨s, P.table⟩, some (s.mem (frame (s.walk d va)) (wordOf va)))
      else .next (P, none)
  | .store pid va user f =>
    match P.running pid with
    | none => .next (P, none)
    | some d =>
      if user = true ∨ c.UserAddr va then
        P.accessing pid d va user true fun s =>
          let p := frame (s.walk d va)
          (⟨s.put p (wordOf va) (f (s.mem p (wordOf va))), P.table⟩, none)
      else .next (P, none)
  | .exec pid discard =>
    match P.running pid with
    | none => .next (P, none)
    | some d =>
      match (do setCR3 d; reset discard d : K Unit) P.machine with
      | .ok _ s => .next (⟨s, P.table⟩, none)
      | .error e _ => .ofStop e
  | .exit pid by_ =>
    match P.table.proc pid with
    | none => .next (P, none)
    | some p =>
      match (do setCR3 (P.loaded pid by_); destroy p.dir : K Unit) P.machine with
      | .ok _ s => .next (⟨s, P.table.set pid none⟩, none)
      | .error e _ => .ofStop e

/-- A run, with what the loads returned. -/
def run (c : Config) : Procs → List Act → Outcome (Procs × List (Option Word))
  | P, [] => .next (P, [])
  | P, act :: acts =>
    match P.step c act with
    | .next (P', seen) =>
      match run c P' acts with
      | .next (P'', rest) => .next (P'', seen :: rest)
      | .starved => .starved
      | .broken => .broken
    | .starved => .starved
    | .broken => .broken

end Procs

/-- A process with a memory of its own, by word numbers. -/
structure EProc where
  mem : Nat → Word
  running : Bool

abbrev Eager := Table EProc

namespace Eager

def running (E : Eager) (pid : Nat) : Option (Nat → Word) :=
  match E.proc pid with
  | some ⟨mem, true⟩ => some mem
  | _ => none

def step (c : Config) (E : Eager) : Act → Eager × Option Word
  | .create => (E.add ⟨fun _ => 0#32, true⟩, none)
  | .fork pid =>
    match E.running pid with
    | none => (E, none)
    | some mem => (E.add ⟨mem, true⟩, none)
  | .load pid va user =>
    match E.running pid with
    | none => (E, none)
    | some mem =>
      if c.UserAddr va then (E, some (mem (va.toNat / 4)))
      else if user then (E.set pid (some ⟨mem, false⟩), none)
      else (E, none)
  | .store pid va user f =>
    match E.running pid with
    | none => (E, none)
    | some mem =>
      if c.UserAddr va then
        let w := va.toNat / 4
        (E.set pid (some ⟨Function.update mem w (f (mem w)), true⟩), none)
      else if user then (E.set pid (some ⟨mem, false⟩), none)
      else (E, none)
  | .exec pid _ =>
    match E.running pid with
    | none => (E, none)
    | some _ => (E.set pid (some ⟨fun _ => 0#32, true⟩), none)
  | .exit pid _ => (E.set pid none, none)

def run (c : Config) : Eager → List Act → List (Option Word)
  | _, [] => []
  | E, act :: acts => (E.step c act).2 :: run c (E.step c act).1 acts

end Eager

/-! ## The relation

Memories are compared by words at user addresses, as a directory shows them (`Finds`): a page that
is not there shows zeros, and so does the eager memory. A process that has ended is kept in both
tables until it is destroyed. -/

theorem wordOf_eq (va : Word) : wordOf va = va.toNat / 4 % 1024 := by
  have hm : (0x3ff#32).toNat = 2 ^ 10 - 1 := by decide
  unfold wordOf
  rw [BitVec.toNat_and, hm, Nat.and_two_pow_sub_one_eq_mod, BitVec.toNat_ushiftRight,
    Nat.shiftRight_eq_div_pow]

/-- Two addresses are in one word if they agree in slot, page and index. -/
theorem word_eq_iff (va va' : Word) : va'.toNat / 4 = va.toNat / 4 ↔
    (pdi va' = pdi va ∧ pti va' = pti va) ∧ wordOf va' = wordOf va := by
  rw [pdi_eq, pdi_eq, pti_eq, pti_eq, wordOf_eq, wordOf_eq]
  omega

/-- What the directory `d` shows at user addresses is `mem`. -/
def Finds (c : Config) (κ : KernelMap) (s : Machine) (S : Space) (d : Word) (mem : Nat → Word) :
    Prop :=
  ∀ va, c.UserAddr va → mem (va.toNat / 4) = S.data κ s d (pdi va) (pti va) (wordOf va)

inductive Sees (c : Config) (κ : KernelMap) (s : Machine) (S : Space) : Proc → EProc → Prop
  | mk {d : Word} {mem : Nat → Word} (r : Bool) (h : Finds c κ s S d mem) :
      Sees c κ s S ⟨d, r⟩ ⟨mem, r⟩

structure Refines (c : Config) (κ : KernelMap) (a : Word → Word → Prop) (P : Procs) (E : Eager)
    (S : Space) : Prop where
  sound : Sound κ True P.machine S 0 a
  agrees : Agrees P.machine S
  low : LowClear κ S
  next : P.table.next = E.next
  fresh : ∀ pid, P.table.next ≤ pid → P.table.proc pid = none
  dirs : ∀ d, d ∈ S.dirs ↔ ∃ pid r, P.table.proc pid = some ⟨d, r⟩
  inj : ∀ pid pid' d r r', P.table.proc pid = some ⟨d, r⟩ → P.table.proc pid' = some ⟨d, r'⟩ →
    pid = pid'
  procs : ∀ pid, Option.Rel (Sees c κ P.machine S) (P.table.proc pid) (E.proc pid)

/-- What a step of the two systems must do. -/
def Follows (c : Config) (κ : KernelMap) (a : Word → Word → Prop) :
    Outcome (Procs × Option Word) → Eager × Option Word → Prop
  | .next (P, seen), (E, seen') => seen = seen' ∧ ∃ S, Refines c κ a P E S
  | .starved, _ => True
  | .broken, _ => False

variable {c : Config} {κ : KernelMap} {a : Word → Word → Prop} {P : Procs} {E : Eager} {S S' : Space}
  {s' : Machine} {d : Word} {mem : Nat → Word} {pid : Nat}

theorem Finds.congr {s : Machine} (h : Finds c κ s S d mem)
    (hd : ∀ k, k < 1024 → ∀ l, l < 1024 → S'.data κ s' d k l = S.data κ s d k l) :
    Finds c κ s' S' d mem := fun va hva => by
  rw [hd _ (pdi_lt va) _ (pti_lt va)]
  exact h va hva

namespace Refines

theorem mem_dirs (R : Refines c κ a P E S) {r : Bool} (h : P.table.proc pid = some ⟨d, r⟩) :
    d ∈ S.dirs := (R.dirs d).mpr ⟨pid, r, h⟩

/-- A process is running in both systems or in neither. -/
theorem running (R : Refines c κ a P E S) (pid : Nat) :
    P.running pid = none ∧ E.running pid = none ∨
    ∃ d mem, P.table.proc pid = some ⟨d, true⟩ ∧ E.proc pid = some ⟨mem, true⟩ ∧
      P.running pid = some d ∧ E.running pid = some mem ∧ Finds c κ P.machine S d mem := by
  have h := R.procs pid
  unfold Procs.running Eager.running
  cases hp : P.table.proc pid with
  | none =>
    rw [hp] at h
    cases he : E.proc pid with
    | none => exact Or.inl ⟨rfl, rfl⟩
    | some e =>
      rw [he] at h
      nomatch h
  | some p =>
    rw [hp] at h
    cases he : E.proc pid with
    | none =>
      rw [he] at h
      nomatch h
    | some e =>
      rw [he] at h
      cases h with
      | some hs =>
        cases hs with
        | mk r hm =>
          cases r with
          | true => exact Or.inr ⟨_, _, rfl, rfl, rfl, rfl, hm⟩
          | false => exact Or.inl ⟨rfl, rfl⟩

/-- The entry of one process is replaced, and the others find what they found. -/
theorem put (R : Refines c κ a P E S) {x : Option Proc} {e : Option EProc} {n : Nat}
    (hs : Sound κ True s' S' 0 a) (hA : Agrees s' S') (hL : LowClear κ S')
    (hn : P.table.next ≤ n) (hpid : pid < n)
    (hdirs : ∀ y, y ∈ S'.dirs ↔ (∃ r, x = some ⟨y, r⟩) ∨
      ∃ q, q ≠ pid ∧ ∃ r, P.table.proc q = some ⟨y, r⟩)
    (hnew : ∀ y r, x = some ⟨y, r⟩ → ∀ q, q ≠ pid → ∀ r', P.table.proc q ≠ some ⟨y, r'⟩)
    (hother : ∀ q, q ≠ pid → ∀ y r, P.table.proc q = some ⟨y, r⟩ →
      ∀ k, k < 1024 → ∀ l, l < 1024 → S'.data κ s' y k l = S.data κ P.machine y k l)
    (hself : Option.Rel (Sees c κ s' S') x e) :
    Refines c κ a ⟨s', P.table.put pid x n⟩ (E.put pid e n) S' where
  sound := hs
  agrees := hA
  low := hL
  next := rfl
  fresh q hq := by
    have hle : n ≤ q := hq
    exact (P.table.put_ne x n (by omega)).trans (R.fresh q (by omega))
  dirs y := by
    rw [hdirs]
    constructor
    · rintro (⟨r, hx⟩ | ⟨q, hqp, r, hq⟩)
      · exact ⟨pid, r, (P.table.put_self pid x n).trans hx⟩
      · exact ⟨q, r, (P.table.put_ne x n hqp).trans hq⟩
    · rintro ⟨q, r, hq⟩
      by_cases hqp : q = pid
      · rw [hqp] at hq
        exact Or.inl ⟨r, (P.table.put_self pid x n).symm.trans hq⟩
      · exact Or.inr ⟨q, hqp, r, (P.table.put_ne x n hqp).symm.trans hq⟩
  inj q q' y r r' hq hq' := by
    by_cases hqp : q = pid
    · rw [hqp] at hq
      have hx := (P.table.put_self pid x n).symm.trans hq
      by_contra hne
      have hqp' : q' ≠ pid := fun h => hne (hqp.trans h.symm)
      exact hnew y r hx q' hqp' r' ((P.table.put_ne x n hqp').symm.trans hq')
    · have h := (P.table.put_ne x n hqp).symm.trans hq
      by_cases hqp' : q' = pid
      · rw [hqp'] at hq'
        exact absurd h (hnew y r' ((P.table.put_self pid x n).symm.trans hq') q hqp r)
      · exact R.inj q q' y r r' h ((P.table.put_ne x n hqp').symm.trans hq')
  procs q := by
    show Option.Rel _ ((P.table.put pid x n).proc q) ((E.put pid e n).proc q)
    by_cases hqp : q = pid
    · rw [hqp, Table.put_self, Table.put_self]
      exact hself
    · rw [Table.put_ne _ _ _ hqp, Table.put_ne _ _ _ hqp]
      have h := R.procs q
      have hq : ∀ y r, P.table.proc q = some ⟨y, r⟩ → _ := hother q hqp
      generalize P.table.proc q = p at h hq ⊢
      generalize E.proc q = e' at h ⊢
      cases h with
      | none => exact Option.Rel.none
      | some hs =>
        cases hs with
        | mk r hm => exact Option.Rel.some (.mk r (hm.congr (hq _ r rfl)))

/-- Two processes have two directories. -/
theorem ne_dir (R : Refines c κ a P E S) {r : Bool} (hpid : P.table.proc pid = some ⟨d, r⟩) {q : Nat}
    (hqp : q ≠ pid) {y : Word} {r' : Bool} (hq : P.table.proc q = some ⟨y, r'⟩) : y ≠ d := by
  rintro rfl
  exact hqp (R.inj q pid y r' r hq hpid)

theorem lt_next (R : Refines c κ a P E S) {p : Proc} (hpid : P.table.proc pid = some p) :
    pid < P.table.next := by
  by_contra hge
  rw [R.fresh pid (by omega)] at hpid
  exact absurd hpid (by simp)

/-- One process changes, and the others find what they found. -/
theorem set (R : Refines c κ a P E S) {r r' : Bool} {e : EProc} (hs : Sound κ True s' S' 0 a)
    (hA : Agrees s' S') (hL : LowClear κ S') (hdirs : S'.dirs = S.dirs)
    (hpid : P.table.proc pid = some ⟨d, r⟩)
    (hother : ∀ x ∈ S.dirs, x ≠ d → ∀ k, k < 1024 → ∀ l, l < 1024 →
      S'.data κ s' x k l = S.data κ P.machine x k l)
    (hself : Sees c κ s' S' ⟨d, r'⟩ e) :
    Refines c κ a ⟨s', P.table.set pid (some ⟨d, r'⟩)⟩ (E.set pid (some e)) S' := by
  have hE : E.set pid (some e) = E.put pid (some e) P.table.next := by
    rw [R.next]
    rfl
  rw [hE]
  refine R.put hs hA hL (Nat.le_refl _) (R.lt_next hpid) (fun y => ?_)
    (fun y r'' hy q hqp r₁ hq => ?_)
    (fun q hqp y r'' hq => hother y (R.mem_dirs hq) (R.ne_dir hpid hqp hq)) (Option.Rel.some hself)
  · rw [hdirs, R.dirs]
    constructor
    · rintro ⟨q, r'', hq⟩
      by_cases hqp : q = pid
      · rw [hqp, hpid] at hq
        obtain ⟨rfl, -⟩ := Proc.mk.inj (Option.some.inj hq)
        exact Or.inl ⟨r', rfl⟩
      · exact Or.inr ⟨q, hqp, r'', hq⟩
    · rintro (⟨r'', hy⟩ | ⟨q, -, r'', hq⟩)
      · obtain ⟨rfl, -⟩ := Proc.mk.inj (Option.some.inj hy)
        exact ⟨pid, r, hpid⟩
      · exact ⟨q, r'', hq⟩
  · obtain ⟨rfl, -⟩ := Proc.mk.inj (Option.some.inj hy)
    exact R.ne_dir hpid hqp hq rfl

/-- A process is added, and the others find what they found. -/
theorem add (R : Refines c κ a P E S) {d' : Word} (hs : Sound κ True s' S' 0 a) (hA : Agrees s' S')
    (hL : LowClear κ S') (hdirs : S'.dirs = insert d' S.dirs) (hnew : d' ∉ S.dirs)
    (hother : ∀ x ∈ S.dirs, ∀ k, k < 1024 → ∀ l, l < 1024 →
      S'.data κ s' x k l = S.data κ P.machine x k l)
    (hself : Finds c κ s' S' d' mem) :
    Refines c κ a ⟨s', P.table.add ⟨d', true⟩⟩ (E.add ⟨mem, true⟩) S' := by
  have hE : E.add ⟨mem, true⟩ = E.put P.table.next (some ⟨mem, true⟩) (P.table.next + 1) := by
    rw [R.next]
    rfl
  rw [hE]
  refine R.put hs hA hL (Nat.le_succ _) (Nat.lt_succ_self _) (fun y => ?_)
    (fun y r hy q _ r' hq => ?_) (fun q _ y r hq => hother y (R.mem_dirs hq))
    (Option.Rel.some (.mk true hself))
  · rw [hdirs, Finset.mem_insert, R.dirs]
    constructor
    · rintro (rfl | ⟨q, r, hq⟩)
      · exact Or.inl ⟨true, rfl⟩
      · exact Or.inr ⟨q, Nat.ne_of_lt (R.lt_next hq), r, hq⟩
    · rintro (⟨r, hy⟩ | ⟨q, -, r, hq⟩)
      · exact Or.inl (Proc.mk.inj (Option.some.inj hy)).1.symm
      · exact Or.inr ⟨q, r, hq⟩
  · obtain ⟨rfl, -⟩ := Proc.mk.inj (Option.some.inj hy)
    exact hnew (R.mem_dirs hq)

/-- A process is gone, and the others find what they found. -/
theorem drop (R : Refines c κ a P E S) {r : Bool} (hs : Sound κ True s' S' 0 a) (hA : Agrees s' S')
    (hL : LowClear κ S') (hdirs : S'.dirs = S.dirs.erase d)
    (hpid : P.table.proc pid = some ⟨d, r⟩)
    (hother : ∀ x ∈ S.dirs, x ≠ d → ∀ k, k < 1024 → ∀ l, l < 1024 →
      S'.data κ s' x k l = S.data κ P.machine x k l) :
    Refines c κ a ⟨s', P.table.set pid none⟩ (E.set pid none) S' := by
  have hE : E.set pid none = E.put pid none P.table.next := by
    rw [R.next]
    rfl
  rw [hE]
  refine R.put hs hA hL (Nat.le_refl _) (R.lt_next hpid) (fun y => ?_)
    (fun y r' hy => absurd hy (by simp))
    (fun q hqp y r' hq => hother y (R.mem_dirs hq) (R.ne_dir hpid hqp hq)) Option.Rel.none
  rw [hdirs, Finset.mem_erase, R.dirs]
  constructor
  · rintro ⟨hyd, q, r', hq⟩
    refine Or.inr ⟨q, ?_, r', hq⟩
    rintro rfl
    rw [hpid] at hq
    exact hyd (Proc.mk.inj (Option.some.inj hq)).1.symm
  · rintro (⟨r', hy⟩ | ⟨q, hqp, r', hq⟩)
    · exact absurd hy (by simp)
    · exact ⟨R.ne_dir hpid hqp hq, q, r', hq⟩

/-! ## Each action

The actions of the kernel. Each is one of the operations on a space, and what it says about the
views of other directories is what the relation needs; only the entries of one or two processes
are replaced. -/

theorem create (R : Refines c κ a P E S) : Follows c κ a (P.step c .create) (E.step c .create) := by
  have hspec := R.sound.copyKpd_spec R.agrees
  have H := R.sound.shape
  unfold Procs.step newProcess
  dsimp only
  cases hr : copyKpd P.machine with
  | error e t =>
    obtain ⟨rfl, -⟩ := wp_error hspec hr
    trivial
  | ok d' s' =>
    obtain ⟨S', h', hA', B, -, hpte⟩ := wp_ok hspec hr
    refine ⟨rfl, S', R.add h' hA' (fun x hx i hi j hj => ?_) B.dirs
      (fun hd => (H.unnamed_of_free B.fresh).2 (Space.mem_nodes.mpr (Or.inl hd)))
      (fun x hx k hk l hl => B.data H hx hk hl) fun va _ => ?_⟩
    · rw [B.dirs] at hx
      obtain rfl | hx := Finset.mem_insert.mp hx
      · rw [hpte]
        exact κ.pte_priv i j
      · rw [B.pte H hx (by omega)]
        exact R.low x hx i hi j hj
    · unfold Space.data
      rw [hpte, κ.pte_priv]
      rfl

theorem fork (R : Refines c κ a P E S) (pid : Nat) :
    Follows c κ a (P.step c (.fork pid)) (E.step c (.fork pid)) := by
  have H := R.sound.shape
  unfold Procs.step Eager.step
  dsimp only
  obtain ⟨hP, hE⟩ | ⟨d, mem, hp, -, hP, hE, hm⟩ := R.running pid
  · rw [hP, hE]
    exact ⟨rfl, S, R⟩
  rw [hP, hE]
  dsimp only
  have hd := R.mem_dirs hp
  have hspec := (R.sound.regs d []).clone_spec R.agrees hd rfl
  cases hr : (do setCR3 d; clone d : K Word) P.machine with
  | error e t =>
    obtain rfl | rfl := wp_error hspec hr
    · trivial
    · trivial
  | ok d' s' =>
    obtain ⟨S', h', hA', F⟩ := wp_ok hspec hr
    refine ⟨rfl, S', R.add h' hA' (fun x hx i hi j hj => ?_) F.dirs
      (fun hd => (H.unnamed_of_free F.fresh).2 (Space.mem_nodes.mpr (Or.inl hd)))
      F.data fun va hva => ?_⟩
    · have hi' : i < 1024 := by omega
      rw [F.dirs] at hx
      obtain rfl | hx := Finset.mem_insert.mp hx
      · rw [F.childPresent i hi' j hj]
        exact R.low d hd i hi j hj
      · rw [F.present x hx i hi' j hj]
        exact R.low x hx i hi j hj
    · rw [F.child _ (pdi_lt va) _ (pti_lt va)]
      exact hm va hva

theorem exec (R : Refines c κ a P E S) (pid : Nat) (discard : Nat → Bool) :
    Follows c κ a (P.step c (.exec pid discard)) (E.step c (.exec pid discard)) := by
  unfold Procs.step Eager.step
  dsimp only
  obtain ⟨hP, hE⟩ | ⟨d, mem, hp, -, hP, hE, hm⟩ := R.running pid
  · rw [hP, hE]
    exact ⟨rfl, S, R⟩
  rw [hP, hE]
  dsimp only
  have hd := R.mem_dirs hp
  have hspec := (R.sound.regs d []).clearPd_spec R.agrees hd discard
  cases hr : (do setCR3 d; reset discard d : K Unit) P.machine with
  | error e t => exact absurd trivial (wp_error hspec hr).2
  | ok u s' =>
    obtain ⟨-, S', C⟩ := wp_ok hspec hr
    have hself : Finds c κ s' S' d fun _ => 0#32 := fun va _ => by
      rw [C.data_self trivial (pdi_lt va) (pti_lt va)]
    have hlow : LowClear κ S' := fun x hx i hi j hj => by
      rw [C.dirs] at hx
      by_cases hxd : x = d
      · rw [hxd, C.clear trivial i (by omega) j hj]
        exact κ.pte_priv i j
      · rw [(C.other trivial x hx hxd i (by omega)).2 j hj]
        exact R.low x hx i hi j hj
    have hset := R.set C.sound C.agrees hlow C.dirs hp
      (fun x hx hxd k hk l hl => C.data trivial R.sound.shape hx hxd hk hl) (.mk true hself)
    rw [Table.set_self hp] at hset
    exact ⟨rfl, S', hset⟩

/-- The directory that is loaded is not the one that is destroyed. -/
theorem loaded_ne (R : Refines c κ a P E S) {r : Bool} (hp : P.table.proc pid = some ⟨d, r⟩)
    (by_ : Option Nat) : P.loaded pid by_ ≠ d := by
  have hk : P.machine.kpd ≠ d := by
    rintro rfl
    rw [R.sound.kernel.kpd] at hp
    exact R.sound.shape.kernelNodes _ (Space.mem_nodes.mpr (Or.inl (R.mem_dirs hp)))
      (Finset.mem_union_left _ κ.kpdRaw)
  unfold Procs.loaded
  cases by_ with
  | none => exact hk
  | some q =>
    dsimp only
    by_cases hqp : q = pid
    · rw [if_pos hqp]
      exact hk
    · rw [if_neg hqp]
      cases hq : P.table.proc q with
      | none => exact hk
      | some p => exact R.ne_dir hp hqp hq

theorem exit (R : Refines c κ a P E S) (pid : Nat) (by_ : Option Nat) :
    Follows c κ a (P.step c (.exit pid by_)) (E.step c (.exit pid by_)) := by
  unfold Procs.step Eager.step
  dsimp only
  cases hp : P.table.proc pid with
  | none =>
    have hE : E.proc pid = none := by
      have h := R.procs pid
      rw [hp] at h
      generalize E.proc pid = e at h ⊢
      cases h
      rfl
    rw [Table.set_self hE]
    exact ⟨rfl, S, R⟩
  | some p =>
    dsimp only
    have hd := R.mem_dirs hp
    have hne := R.loaded_ne hp by_
    have hkpd : p.dir ≠ P.machine.kpd := by
      intro hk
      have := R.loaded_ne hp none
      exact this hk.symm
    have hspec : wp (do setCR3 (P.loaded pid by_); destroy p.dir : K Unit)
        (fun _ s' => ∃ S', Sound κ True s' S' 0 a ∧ Agrees s' S' ∧
          Destroyed κ { P.machine with cr3 := P.loaded pid by_, tlb := [] } S p.dir s' S')
        (fun _ _ => False) P.machine := by
      unfold destroy
      simp only [wp_bind, wp_setCR3, wp_get, wp_assert]
      rw [if_pos hkpd]
      exact (R.sound.regs (P.loaded pid by_) []).destroyPd_spec R.agrees hd hne
    cases hr : (do setCR3 (P.loaded pid by_); destroy p.dir : K Unit) P.machine with
    | error e t => exact (wp_error hspec hr).elim
    | ok u s' =>
      obtain ⟨S', h', hA', D⟩ := wp_ok hspec hr
      refine ⟨rfl, S', R.drop h' hA' (fun x hx i hi j hj => ?_) D.dirs hp
        fun x hx hxd k hk l hl => D.data h'.shape hx hxd hk hl⟩
      rw [D.dirs] at hx
      rw [Space.pte_of_ent_eq D.ent]
      exact R.low x (Finset.mem_of_mem_erase hx) i hi j hj

/-! ## Accesses

An access succeeds at once, or after one page fault, or never: at the kernel's addresses the
handler refuses. The two lemmas are for the addresses at which the kernel maps nothing and for the
others, and `step` puts every action together. -/

/-- Where the kernel maps nothing. -/
theorem pte_user {s₀ : Machine} {a₀ : Word → Word → Prop} {n : Nat} (B : Booted c s₀ κ a₀ n)
    (hc : c.Valid) {va : Word} (hu : c.UserAddr va) : κ.pte (pdi va) (pti va) = 0#32 :=
  B.none _ _ (pdi_lt va) (pti_lt va) fun hm => hu.2 ((Config.maps_iff hc va).mp hm)

theorem pte_other {s₀ : Machine} {a₀ : Word → Word → Prop} {n : Nat} (B : Booted c s₀ κ a₀ n)
    (hc : c.Valid) {va : Word} (hu : ¬ c.UserAddr va) :
    va < 0x80000000#32 ∨ κ.pte (pdi va) (pti va) ≠ 0#32 := by
  by_cases hlt : va < 0x80000000#32
  · exact Or.inl hlt
  · have hk : c.KernelAddr va := by
      by_contra hn
      exact hu ⟨BitVec.not_lt.mp hlt, hn⟩
    rw [B.page _ _ (pdi_lt va) (pti_lt va) ((Config.maps_iff hc va).mpr hk)]
    exact Or.inr (kernelEntry_mk (aligned_pageAt _ _)).ne_zero

section access

variable {s₀ : Machine} {a₀ : Word → Word → Prop} {n : Nat} {va : Word} {user write : Bool}
  {k : Machine → Procs × Option Word}

theorem access_user (R : Refines c κ a P E S) (hp : P.table.proc pid = some ⟨d, true⟩)
    (hge : 0x80000000#32 ≤ va) (hκ : κ.pte (pdi va) (pti va) = 0#32) {r : Eager × Option Word}
    (hk : ∀ s' S', Sound κ True s' S' 0 a → Agrees s' S' → LowClear κ S' →
      Accessed κ { P.machine with cr3 := d, tlb := [] } S va write s' S' →
      Follows c κ a (.next (k s')) r) :
    Follows c κ a (P.accessing pid d va user write k) r := by
  have hspec := (R.sound.regs d []).access_user R.agrees (R.mem_dirs hp) hge hκ user write
  unfold Procs.accessing
  cases hr : (do setCR3 d; access va user write : K Bool) P.machine with
  | error e t =>
    obtain ⟨rfl, -⟩ | ⟨rfl, -⟩ := wp_error hspec hr
    · trivial
    · trivial
  | ok v s' =>
    obtain ⟨rfl, S', h', hA', A⟩ := wp_ok hspec hr
    refine hk s' S' h' hA' (fun x hx i hi j hj => ?_) A
    have h0 : (0x80000000#32 : Word).toNat = 512 * 2 ^ 22 := by decide
    rw [BitVec.le_def] at hge
    rw [A.dirs] at hx
    rw [A.pte x hx i (by omega) j hj fun he => by
      rw [pdi_eq] at he
      omega]
    exact R.low x hx i hi j hj

theorem access_other (R : Refines c κ a P E S) (hp : P.table.proc pid = some ⟨d, true⟩)
    (hm : Finds c κ P.machine S d mem)
    (hva : va < 0x80000000#32 ∨ κ.pte (pdi va) (pti va) ≠ 0#32) :
    Follows c κ a (P.accessing pid d va true write k) (E.set pid (some ⟨mem, false⟩), none) := by
  have hd := R.mem_dirs hp
  have hspec := (R.sound.regs d []).access_other R.agrees hd R.low hva write
  unfold Procs.accessing
  cases hr : (do setCR3 d; access va true write : K Bool) P.machine with
  | ok v s' => exact (wp_ok hspec hr).elim
  | error e s' =>
    obtain ⟨⟨rfl, -⟩ | ⟨rfl, -⟩, -⟩ | ⟨rfl, S', h', hA', D⟩ := wp_error hspec hr
    · trivial
    · trivial
    · refine ⟨rfl, S', R.set h' hA' (fun x hx i hi j hj => ?_) D.dirs hp
        (fun x hx _ k hk l hl => D.data x hx k hk l hl)
        (.mk false (hm.congr fun k hk l hl => D.data d hd k hk l hl))⟩
      rw [D.dirs] at hx
      rw [D.pte x hx i (by omega) j hj]
      exact R.low x hx i hi j hj

theorem load (R : Refines c κ a P E S) (B : Booted c s₀ κ a₀ n) (hc : c.Valid) (pid : Nat)
    (va : Word) (user : Bool) :
    Follows c κ a (P.step c (.load pid va user)) (E.step c (.load pid va user)) := by
  unfold Procs.step Eager.step
  dsimp only
  obtain ⟨hP, hE⟩ | ⟨d, mem, hp, he, hP, hE, hm⟩ := R.running pid
  · rw [hP, hE]
    exact ⟨rfl, S, R⟩
  rw [hP, hE]
  dsimp only
  have hd := R.mem_dirs hp
  by_cases hu : c.UserAddr va
  · rw [if_pos (Or.inr hu), if_pos hu]
    refine R.access_user hp hu.1 (pte_user B hc hu) fun s' S' h' hA' hL' A => ⟨?_, S', ?_⟩
    · have hpage := A.page
      have hd' : d ∈ S'.dirs := by rw [A.dirs]; exact hd
      rw [h'.walk hA' hd', hm va hu]
      have hdata := A.data d hd _ (pdi_lt va) _ (pti_lt va)
      rw [show S.data κ P.machine d (pdi va) (pti va) = _ from hdata.symm]
      unfold Space.data
      rw [if_pos hpage]
    · have hset := R.set h' hA' hL' A.dirs hp
        (fun x hx _ k hk l hl => A.data x hx k hk l hl)
        (.mk true (hm.congr fun k hk l hl => A.data d hd k hk l hl))
      rw [Table.set_self hp, Table.set_self he] at hset
      exact hset
  · cases user with
    | true =>
      rw [if_pos (Or.inl rfl), if_neg hu, if_pos rfl]
      exact R.access_other hp hm (pte_other B hc hu)
    | false =>
      rw [if_neg (by simp [hu]), if_neg hu, if_neg (by simp)]
      exact ⟨rfl, S, R⟩

theorem store (R : Refines c κ a P E S) (B : Booted c s₀ κ a₀ n) (hc : c.Valid) (pid : Nat)
    (va : Word) (user : Bool) (f : Word → Word) :
    Follows c κ a (P.step c (.store pid va user f)) (E.step c (.store pid va user f)) := by
  unfold Procs.step Eager.step
  dsimp only
  obtain ⟨hP, hE⟩ | ⟨d, mem, hp, he, hP, hE, hm⟩ := R.running pid
  · rw [hP, hE]
    exact ⟨rfl, S, R⟩
  rw [hP, hE]
  dsimp only
  have hd := R.mem_dirs hp
  by_cases hu : c.UserAddr va
  · rw [if_pos (Or.inr hu), if_pos hu]
    refine R.access_user hp hu.1 (pte_user B hc hu) fun s' S' h' hA' hL' A => ⟨rfl, S', ?_⟩
    have hd' : d ∈ S'.dirs := by rw [A.dirs]; exact hd
    obtain ⟨hwd, hwp⟩ := A.writable rfl
    rw [h'.walk hA' hd']
    obtain ⟨h'', hA'', hself, hother⟩ := h'.store_page hA' hd' (pdi_lt va) (pti_lt va) A.page hwd hwp
      (wordOf va) (f (s'.mem (frame (S'.pte κ d (pdi va) (pti va))) (wordOf va)))
    have hfinds : Finds c κ (s'.put (frame (S'.pte κ d (pdi va) (pti va))) (wordOf va)
        (f (s'.mem (frame (S'.pte κ d (pdi va) (pti va))) (wordOf va)))) S' d
        (Function.update mem (va.toNat / 4) (f (mem (va.toNat / 4)))) := by
      intro va' hva'
      have hold : s'.mem (frame (S'.pte κ d (pdi va) (pti va))) (wordOf va) = mem (va.toNat / 4) := by
        rw [hm va hu, show S.data κ P.machine d (pdi va) (pti va) = _ from
          (A.data d hd _ (pdi_lt va) _ (pti_lt va)).symm]
        unfold Space.data
        rw [if_pos A.page]
      by_cases hpage : pdi va' = pdi va ∧ pti va' = pti va
      · rw [hpage.1, hpage.2, hself, hold, A.data d hd _ (pdi_lt va) _ (pti_lt va)]
        by_cases hw : wordOf va' = wordOf va
        · rw [hw, Function.update_self, (word_eq_iff va va').mpr ⟨hpage, hw⟩, Function.update_self]
        · rw [Function.update_of_ne hw, Function.update_of_ne fun h => hw ((word_eq_iff va va').mp h).2,
            hm va' hva', hpage.1, hpage.2]
          rfl
      · rw [hother d hd' _ (pdi_lt va') _ (pti_lt va') fun h => hpage h.2,
          A.data d hd _ (pdi_lt va') _ (pti_lt va')]
        have hne : va'.toNat / 4 ≠ va.toNat / 4 := fun h => hpage ((word_eq_iff va va').mp h).1
        exact (Function.update_of_ne hne _ _).trans (hm va' hva')
    have hset := R.set h'' hA'' hL' A.dirs hp (fun x hx hxd k hk l hl => ?_) (.mk true hfinds)
    · rw [Table.set_self hp] at hset
      exact hset
    · rw [hother x (by rw [A.dirs]; exact hx) k hk l hl fun h => hxd h.1]
      exact A.data x hx k hk l hl
  · cases user with
    | true =>
      rw [if_pos (Or.inl rfl), if_neg hu, if_pos rfl]
      exact R.access_other hp hm (pte_other B hc hu)
    | false =>
      rw [if_neg (by simp [hu]), if_neg hu, if_neg (by simp)]
      exact ⟨rfl, S, R⟩

/-- One action. -/
theorem step (R : Refines c κ a P E S) (B : Booted c s₀ κ a₀ n) (hc : c.Valid) (act : Act) :
    Follows c κ a (P.step c act) (E.step c act) := by
  cases act with
  | create => exact R.create
  | fork pid => exact R.fork pid
  | load pid va user => exact R.load B hc pid va user
  | store pid va user f => exact R.store B hc pid va user f
  | exec pid discard => exact R.exec pid discard
  | exit pid by_ => exact R.exit pid by_

end access

end Refines

/-! ## Every run

By induction on the actions. Frames and reference counts may run out in the code's system and not
in the eager one; then the run has an end, and what it has shown up to there agrees. -/

/-- What a run of the processes must show: what the eager system shows, unless frames or counters
run out. -/
def Outcome.Shows : Outcome (Procs × List (Option Word)) → List (Option Word) → Prop
  | .next (_, seen), seen' => seen = seen'
  | .starved, _ => True
  | .broken, _ => False

/-- A run that is done leaves the two systems in states that are still related. -/
theorem Refines.reaches {s₀ : Machine} {a₀ : Word → Word → Prop} {n : Nat} (B : Booted c s₀ κ a₀ n)
    (hc : c.Valid) : ∀ (acts : List Act) {P P' : Procs} {E : Eager} {S : Space}
    {seen : List (Option Word)}, Refines c κ a P E S → P.run c acts = .next (P', seen) →
    ∃ E' S', Refines c κ a P' E' S'
  | [], P, P', E, S, seen, R, hr => by
    obtain ⟨rfl, -⟩ := Prod.mk.inj (Outcome.next.inj hr)
    exact ⟨E, S, R⟩
  | act :: acts, P, P', E, S, seen, R, hr => by
    have h := R.step B hc act
    unfold Procs.run at hr
    cases hs : P.step c act with
    | starved =>
      rw [hs] at hr
      cases hr
    | broken =>
      rw [hs] at h
      exact h.elim
    | next r =>
      obtain ⟨P₁, o⟩ := r
      rw [hs] at h hr
      obtain ⟨-, S₁, R₁⟩ := h
      dsimp only at hr
      cases hrest : P₁.run c acts with
      | starved =>
        rw [hrest] at hr
        cases hr
      | broken =>
        rw [hrest] at hr
        cases hr
      | next r =>
        obtain ⟨P₂, rest⟩ := r
        rw [hrest] at hr
        obtain ⟨rfl, -⟩ := Prod.mk.inj (Outcome.next.inj hr)
        exact Refines.reaches B hc acts R₁ hrest

theorem Refines.run {s₀ : Machine} {a₀ : Word → Word → Prop} {n : Nat} (B : Booted c s₀ κ a₀ n)
    (hc : c.Valid) : ∀ (acts : List Act) {P : Procs} {E : Eager} {S : Space},
    Refines c κ a P E S → (P.run c acts).Shows (E.run c acts)
  | [], _, _, _, _ => rfl
  | act :: acts, P, E, S, R => by
    have h := R.step B hc act
    unfold Procs.run Eager.run
    cases hs : P.step c act with
    | starved => trivial
    | broken =>
      rw [hs] at h
      exact h.elim
    | next r =>
      obtain ⟨P', seen⟩ := r
      rw [hs] at h
      obtain ⟨rfl, S', R'⟩ := h
      have ih := Refines.run B hc acts R'
      dsimp only
      cases hr : P'.run c acts with
      | starved => trivial
      | broken =>
        rw [hr] at ih
        exact ih.elim
      | next r =>
        rw [hr] at ih
        exact congrArg _ ih

/-- The kernel with its processes, before there are any. -/
def Procs.init (σ : System) : Procs := ⟨σ.machine, Table.empty⟩

theorem Refines.init {c : Config} {σ : System} {κ : KernelMap} {a : Word → Word → Prop} {n : Nat}
    (B : Booted c σ.machine κ a n) :
    Refines c κ a (Procs.init σ) Table.empty (Space.idle κ) where
  sound := B.sound.weaken (Nat.zero_le _)
  agrees x hx := absurd (Space.mem_nodes.mp hx) (by simp [Space.idle])
  low := LowClear.idle κ
  next := rfl
  fresh _ _ := rfl
  dirs d := by
    constructor
    · exact fun hd => absurd hd (Finset.notMem_empty d)
    · rintro ⟨pid, r, h⟩
      exact absurd h (by simp [Procs.init, Table.empty])
  inj _ _ _ _ _ h := absurd h (by simp [Procs.init, Table.empty])
  procs _ := Option.Rel.none

/-- A store of one process is nothing to another. -/
theorem Eager.store_other (c : Config) (E : Eager) {pid q : Nat} (h : q ≠ pid) (va : Word)
    (user : Bool) (f : Word → Word) : (E.step c (.store pid va user f)).1.proc q = E.proc q := by
  have hset : ∀ e : Option EProc, (E.set pid e).proc q = E.proc q := fun e =>
    Function.update_of_ne h _ _
  unfold Eager.step
  dsimp only
  split
  · rfl
  · split
    · exact hset _
    · split
      · exact hset _
      · rfl

/-- Every load of every process returns what it would if each process had a memory of its own and
fork copied it, and no access at a user address takes a second page fault. In that system a store
of one process changes no other's memory. -/
theorem cow_refines_eager {c : Config} {σ : System} (h : Started c σ) (acts : List Act) :
    ((Procs.init σ).run c acts).Shows (Eager.run c Table.empty acts) ∧
    ∀ (E : Eager) (pid q : Nat) (va : Word) (user : Bool) (f : Word → Word), q ≠ pid →
      (E.step c (.store pid va user f)).1.proc q = E.proc q := by
  obtain ⟨κ, a, n, B, -⟩ := h.good
  exact ⟨(Refines.init B).run B h.1 acts, fun E _ _ va user f hq => E.store_other c hq va user f⟩

theorem cow_refines_eager_small : ∃ σ, Started .small σ ∧
    ((Procs.init σ).run .small [.create, .store 0 0x80000000#32 true fun _ => 7#32, .fork 0,
      .load 1 0x80000000#32 true]).Shows [none, none, none, some 7#32] := by
  obtain ⟨σ, κ, a, h, -, -⟩ := small_starts
  have hE : Eager.run .small Table.empty [.create, .store 0 0x80000000#32 true fun _ => 7#32,
      .fork 0, .load 1 0x80000000#32 true] = [none, none, none, some 7#32] := by decide
  exact ⟨σ, h, hE ▸ (cow_refines_eager h _).1⟩

/-- A machine with memory beyond `0x80000000`. -/
def Config.big : Config := ⟨0x80400000#32, 0xFEE00000#32, 0xFEC00000#32⟩

theorem Config.big_valid : Config.big.Valid :=
  ⟨by unfold Aligned; decide, by decide, by unfold Aligned; decide, by unfold Aligned; decide⟩

/-- There a process that reads at `0x80000000` does not come back: the page is the kernel's. -/
theorem read_ends_process : ∃ σ P, Started .big σ ∧
    (Procs.init σ).run .big [.create, .load 0 0x80000000#32 true] = .next (P, [none, none]) ∧
    P.running 0 = none := by
  obtain ⟨σ, κ, a, h, -, B⟩ := exists_started Config.big_valid (by decide)
  have R₀ := Refines.init B
  obtain ⟨d, s₁, hr₁, S₁, h₁, hA₁, N, -, hpte⟩ := wp_returns (wp_mono
    (B.sound.copyKpd_spec R₀.agrees) (fun _ _ h => h) fun _ _ he => by
      have h2 : (2 : Nat) ≤ Config.big.poolFrames - Config.big.bootFrames := by decide
      omega)
  have hd : d ∈ S₁.dirs := by
    rw [N.dirs]
    exact Finset.mem_insert_self d _
  have hL : LowClear κ S₁ := fun x hx i _ j _ => by
    rw [N.dirs] at hx
    obtain rfl | hx := Finset.mem_insert.mp hx
    · rw [hpte]
      exact κ.pte_priv i j
    · exact absurd hx (Finset.notMem_empty x)
  have hspec := (h₁.regs d []).access_other hA₁ hd hL
    (Refines.pte_other B h.1 (show ¬ Config.big.UserAddr 0x80000000#32 by decide)) false
  have hstep₁ : (Procs.init σ).step .big .create = .next (⟨s₁, Table.empty.add ⟨d, true⟩⟩, none) := by
    unfold Procs.step newProcess Procs.init
    dsimp only
    rw [hr₁]
  have hstep₂ : ∃ s₂, (Procs.mk s₁ (Table.empty.add ⟨d, true⟩)).step .big (.load 0 0x80000000#32 true) =
      .next (⟨s₂, (Table.empty.add ⟨d, true⟩).set 0 (some ⟨d, false⟩)⟩, none) := by
    have hstep : (Procs.mk s₁ (Table.empty.add ⟨d, true⟩)).step .big (.load 0 0x80000000#32 true) =
        (Procs.mk s₁ (Table.empty.add ⟨d, true⟩)).accessing 0 d 0x80000000#32 true false fun s =>
          (⟨s, Table.empty.add ⟨d, true⟩⟩,
            some (s.mem (frame (s.walk d 0x80000000#32)) (wordOf 0x80000000#32))) := rfl
    rw [hstep]
    unfold Procs.accessing
    cases hr : (do setCR3 d; access 0x80000000#32 true false : K Bool) s₁ with
    | ok v s₂ => exact (wp_ok hspec hr).elim
    | error e s₂ =>
      obtain ⟨-, hf⟩ | ⟨rfl, -⟩ := wp_error hspec hr
      · exact absurd hf (by simp)
      · exact ⟨s₂, rfl⟩
  obtain ⟨s₂, hstep₂⟩ := hstep₂
  refine ⟨σ, ⟨s₂, (Table.empty.add ⟨d, true⟩).set 0 (some ⟨d, false⟩)⟩, h, ?_, rfl⟩
  unfold Procs.run
  rw [hstep₁]
  dsimp only
  unfold Procs.run
  rw [hstep₂]
  dsimp only
  unfold Procs.run
  rfl

end OsKernel.Vmm
