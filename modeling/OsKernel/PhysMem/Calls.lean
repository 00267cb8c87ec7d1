import OsKernel.Lib.Totals
import OsKernel.PhysMem.Account
import OsKernel.PhysMem.Frames

/-!
# `incref` and `decref` on several cores

A step is an access that no other core can divide: the section of `incref` under `reflock`, a
load or an atomic operation on `refs[ridx]`, an atomic operation on a 16-bit entry, or a call
of `dealloc_frame`, which has a lock of its own. Whatever the callback of a `decref` does is
done by calls of others.

A first reference comes from `alloc_frame`. A later `incref` is made by a holder, and the
frame keeps a reference until it returns; several may rely on one reference, as two processes
do that copy a page table they share. `decref` takes the caller's reference away. That is what
`spare` is for: the references that no call has in hand.

## The condition

The code is not right for every order. `incref` tests the count of the chunk under `reflock`
and counts after the section, so two first references can each install a table; and `decref`
takes a table away without looking who has loaded its address. `StepOk` names the steps that
go wrong, by what the state is before them: a section that finds the count at zero although
there is a table, an `incref` that loads the word of a chunk without one, a subtraction on the
word that comes to zero behind a load, and a counter that wraps. The theorem of
`PhysMem/Interleaved.lean` is about all runs without such a step, and two runs there have one
each.

Cores are a type `T`, finite where something is added up over them. One core is in one call at
most, as nothing here sleeps; a processor that is interrupted in the middle of a call and
begins another one counts as two.
-/

set_option autoImplicit false

namespace OsKernel.PhysMem

open Lib Lib.Prog K

/-- Where a core is in a call on the frame `p`. -/
inductive Pc
  | idle
  /-- at the section of `incref`; `alloc_frame` is the caller if `fresh` -/
  | enter (p : Word) (fresh : Bool)
  /-- at the load of `refs[ridx]` -/
  | load (p : Word) (fresh : Bool)
  | fetchAdd (p : Word) (fresh : Bool) (rtb : Word)
  | addFetch (p : Word) (fresh : Bool)
  /-- at the load of `decref` -/
  | read (p : Word)
  | subFetch (p rtb : Word)
  /-- at the callback and `dealloc_frame(p)` -/
  | call (p : Word)
  /-- at the `sub_fetch` on `refs[ridx]` -/
  | drop (p : Word)
  /-- at `dealloc_frame` for the table -/
  | dealloc (p rtb : Word)
  deriving DecidableEq

/-- The allocator and the cores. -/
structure Cores (T : Type) where
  pool : Pool
  pc : T → Pc
  /-- the table of a chunk, from the section that installs it to the `sub_fetch` that comes to zero -/
  table : Nat → Option Word
  spare : Word → Nat
  /-- the `incref`s of holders that have not returned -/
  borrowed : Word → Nat
  /-- calls that have returned -/
  increfs : Word → Nat
  decrefs : Word → Nat

inductive Act (T : Type)
  /-- `unsafe_alloc_frame` of `alloc_frame` -/
  | alloc (t : T)
  | incref (t : T) (p : Word)
  | decref (t : T) (p : Word)
  | go (t : T)
  /-- a holder writes to its frame -/
  | fill (p : Word) (words : Nat → Word)

namespace Cores

variable {T : Type} [DecidableEq T]

def machine (s : Cores T) : Machine := s.pool.machine

/-- The chunk of `p`. -/
def chunk (s : Cores T) (p : Word) : Nat := ridx s.machine.start p

/-- The entry of `p` in its table. -/
def slot (s : Cores T) (p : Word) : Nat := rofs s.machine.start p

def setPc (s : Cores T) (t : T) (v : Pc) : Cores T := { s with pc := Function.update s.pc t v }

def setMachine (s : Cores T) (m : Machine) : Cores T := { s with pool := { s.pool with machine := m } }

def setWord (s : Cores T) (c : Nat) (v : Word) : Cores T :=
  s.setMachine { s.machine with refs := Function.update s.machine.refs c v }

/-- A 16-bit entry is written. -/
def setEntry (s : Cores T) (rtb : Word) (r : Nat) (v : BitVec 16) : Cores T :=
  s.setMachine { s.machine with
    mem := Function.update s.machine.mem rtb (wr16 (s.machine.mem rtb) r v) }

/-- `incref` returns: there is one reference more. -/
def counted (s : Cores T) (t : T) (p : Word) (fresh : Bool) : Cores T :=
  { s.setPc t .idle with
    spare := Function.update s.spare p (s.spare p + 1)
    borrowed := Function.update s.borrowed p (s.borrowed p - if fresh then 0 else 1)
    increfs := Function.update s.increfs p (s.increfs p + 1) }

/-- `decref` returns. -/
def uncounted (s : Cores T) (t : T) (p : Word) : Cores T :=
  { s.setPc t .idle with decrefs := Function.update s.decrefs p (s.decrefs p + 1) }

/-- `dealloc_frame(p)`. -/
def givenBack (s : Cores T) (p : Word) : Option (Cores T) :=
  match deallocFrame p s.machine with
  | .ok _ m => some { s with pool := s.pool.setLive m p false }
  | .error _ _ => none

/-- The section of `incref`. -/
def entered (s : Cores T) (p : Word) : Option (Cores T) :=
  match ensureTable p s.machine with
  | .ok _ m =>
    if s.machine.refs (s.chunk p) &&& 0xfff#32 = 0#32 then
      some { s with
        pool := s.pool.setLive m (m.refs (s.chunk p)) true
        table := Function.update s.table (s.chunk p) (some (m.refs (s.chunk p))) }
    else some (s.setMachine m)
  | .error _ _ => none

/-- The next step of a call. -/
def go (s : Cores T) (t : T) : Option (Cores T) :=
  match s.pc t with
  | .idle => none
  | .enter p fresh => (s.entered p).map fun s => s.setPc t (.load p fresh)
  | .load p fresh => some (s.setPc t (.fetchAdd p fresh (s.machine.refs (s.chunk p) &&& 0xfffff000#32)))
  | .fetchAdd p fresh rtb =>
    let old := rd16 (s.machine.mem rtb) (s.slot p)
    let s := s.setEntry rtb (s.slot p) (old + 1#16)
    if old = 0#16 then some (s.setPc t (.addFetch p fresh)) else some (s.counted t p fresh)
  | .addFetch p fresh =>
    some ((s.setWord (s.chunk p) (s.machine.refs (s.chunk p) + 1#32)).counted t p fresh)
  | .read p =>
    let rent := s.machine.refs (s.chunk p)
    if rent &&& 0xfff#32 = 0#32 then none
    else some (s.setPc t (.subFetch p (rent &&& 0xfffff000#32)))
  | .subFetch p rtb =>
    let val := rd16 (s.machine.mem rtb) (s.slot p) - 1#16
    let s := s.setEntry rtb (s.slot p) val
    if val = 0#16 then some (s.setPc t (.call p)) else some (s.uncounted t p)
  | .call p => (s.givenBack p).map fun s => s.setPc t (.drop p)
  | .drop p =>
    let rent := s.machine.refs (s.chunk p) - 1#32
    let s := s.setWord (s.chunk p) rent
    if rent &&& 0xfff#32 = 0#32 then
      some ({ s with table := Function.update s.table (s.chunk p) none }.setPc t
        (.dealloc p (rent &&& 0xfffff000#32)))
    else some (s.uncounted t p)
  | .dealloc p rtb => (s.givenBack rtb).map fun s => s.uncounted t p

def step (s : Cores T) : Act T → Option (Cores T)
  | .alloc t =>
    if s.pc t = .idle then
      match unsafeAllocFrame s.machine with
      | .ok p m => some ({ s with pool := s.pool.setLive m p true }.setPc t (.enter p true))
      | .error _ _ => none
    else none
  | .incref t p =>
    if s.pc t = .idle ∧ 0 < s.spare p ∧ offset p = 0#32 then
      some ({ s with borrowed := Function.update s.borrowed p (s.borrowed p + 1) }.setPc t
        (.enter p false))
    else none
  | .decref t p =>
    if s.pc t = .idle ∧ 0 < s.spare p ∧ (s.borrowed p = 0 ∨ 1 < s.spare p) ∧ offset p = 0#32 then
      some ({ s with spare := Function.update s.spare p (s.spare p - 1) }.setPc t (.read p))
    else none
  | .go t => s.go t
  | .fill p words =>
    if 0 < s.spare p then
      some (s.setMachine { s.machine with mem := Function.update s.machine.mem p words })
    else none

/-- After `PhysMem::init`. -/
def started (m : Machine) : Cores T where
  pool := ⟨m, fun _ => false⟩
  pc _ := .idle
  table _ := none
  spare _ := 0
  borrowed _ := 0
  increfs _ := 0
  decrefs _ := 0

end Cores

/-- An `incref` has loaded the address of its table and has not returned. -/
def Pc.hasLoaded (start : Word) (c : Nat) : Pc → Prop
  | fetchAdd p _ _ => ridx start p = c
  | addFetch p _ => ridx start p = c
  | _ => False

instance (start : Word) (c : Nat) : (v : Pc) → Decidable (v.hasLoaded start c)
  | .fetchAdd _ _ _ | .addFetch _ _ => inferInstanceAs (Decidable (_ = _))
  | .idle | .enter _ _ | .load _ _ | .read _ | .subFetch _ _ | .call _ | .drop _ | .dealloc _ _ =>
    isFalse id

/-- The table that the next step accesses. -/
def Pc.accesses : Pc → Option Word
  | fetchAdd _ _ rtb => some rtb
  | subFetch _ rtb => some rtb
  | dealloc _ rtb => some rtb
  | _ => none

namespace Cores

variable {T : Type} [DecidableEq T]

/-- A section that finds the count of the chunk at zero finds no table, either; an `incref` that
loads the word finds one; a `sub_fetch` comes to zero only when no `incref` has loaded the table; and
neither the entry nor the count overflows. -/
def CallOk (s : Cores T) : Pc → Prop
  | .enter p _ => s.machine.refs (s.chunk p) &&& 0xfff#32 = 0#32 → s.table (s.chunk p) = none
  | .load p _ => s.table (s.chunk p) ≠ none
  | .fetchAdd p _ rtb => rd16 (s.machine.mem rtb) (s.slot p) ≠ 0xffff#16
  | .addFetch p _ => s.machine.refs (s.chunk p) &&& 0xfff#32 ≠ 0xfff#32
  | .drop p => (s.machine.refs (s.chunk p) - 1#32) &&& 0xfff#32 = 0#32 →
      ∀ u, ¬(s.pc u).hasLoaded s.machine.start (s.chunk p)
  | _ => True

def StepOk (s : Cores T) : Act T → Prop
  | .go t => s.CallOk (s.pc t)
  | _ => True

instance [Fintype T] (s : Cores T) : (v : Pc) → Decidable (s.CallOk v)
  | .enter _ _ => inferInstanceAs (Decidable (_ → _))
  | .load _ _ => inferInstanceAs (Decidable (_ ≠ _))
  | .fetchAdd _ _ _ => inferInstanceAs (Decidable (_ ≠ _))
  | .addFetch _ _ => inferInstanceAs (Decidable (_ ≠ _))
  | .drop _ => inferInstanceAs (Decidable (_ → ∀ u, ¬(s.pc u).hasLoaded _ _))
  | .idle | .read _ | .subFetch _ _ | .call _ | .dealloc _ _ => isTrue trivial

instance [Fintype T] (s : Cores T) : (act : Act T) → Decidable (s.StepOk act)
  | .go t => inferInstanceAs (Decidable (s.CallOk (s.pc t)))
  | .alloc _ | .incref _ _ | .decref _ _ | .fill _ _ => isTrue trivial

/-- All calls have returned. -/
def Quiet (s : Cores T) : Prop := ∀ t, s.pc t = .idle

/-- The chunk counts a frame. -/
def Counts (s : Cores T) (c : Nat) : Prop := s.machine.refs c &&& 0xfff#32 ≠ 0#32

/-- The frame that the word of the chunk names. -/
def tableOf (s : Cores T) (c : Nat) : Word := s.machine.refs c &&& 0xfffff000#32

/-- Once all calls have returned, the entries are the `incref`s less the `decref`s, and the frames in
use are those with references and one table for each chunk that counts one. At no time is a table
accessed that has been freed. -/
structure Exact (lo hi : Nat) (s : Cores T) : Prop where
  entry : s.Quiet → ∀ p, FrameIn lo hi p → refCount s.machine p + s.decrefs p = s.increfs p
  counts : s.Quiet → ∀ c, s.Counts c ↔
    ∃ p, FrameIn lo hi p ∧ s.chunk p = c ∧ s.decrefs p < s.increfs p
  inUse : s.Quiet → ∀ q, s.pool.live q = true ↔
    s.decrefs q < s.increfs q ∨ ∃ c, s.Counts c ∧ s.tableOf c = q
  table : s.Quiet → ∀ c, s.Counts c → ¬s.decrefs (s.tableOf c) < s.increfs (s.tableOf c) ∧
    ∀ c', s.Counts c' → s.tableOf c' = s.tableOf c → c' = c
  access : ∀ t rtb, (s.pc t).accesses = some rtb →
    s.pool.live rtb = true ∧ ¬IsFree s.machine rtb

end Cores

end OsKernel.PhysMem
