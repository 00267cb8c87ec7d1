import OsKernel.Lib.RefGraph
import OsKernel.Lib.Runs

/-!
# Reference-counted handles

`Shared<T>` of `shared.h`: handles in memory, the counter in each object, and the six ways to
give a handle a value. A handle is a pointer of four bytes, so there are at most `places` of
them; the counter is 32 bits wide, and so it does not wrap.

The objects hold no handles themselves. `made` and `deleted` count the runs of `new` and
`delete` for each address and are read by nobody.

Each operation is composed of the parts that its text is composed of: the counter of one
object goes down (`drop`), a handle is pointed somewhere (`point`), a pointer is moved
(`move`). There is a lemma for each part and one for each operation, and `Good.step` chooses
among them.

An assignment resets the destination before it looks at the source. That is right unless the
two are the same: a handle moved to itself has lost what it was to be given, and an address
assigned to the only handle of the object is the address of what has just been deleted.
`Op.sound` names these, as conditions on the handles before the assignment. Assigning a handle
to itself by copying is looked for in the source, and harmless.

Operations do not overlap: the counter is updated atomically, and a handle is accessed by one
thread. What the kernel's own handles do along a call, and what becomes of them when a call
does not return, is in `Sys`.
-/

set_option autoImplicit false
set_option linter.unusedSectionVars false

namespace OsKernel.Shared

open Lib Lib.RefGraph

variable {O : Type} [DecidableEq O]

/-- The places in memory where a handle can be. -/
def places : Nat := 2 ^ 30

theorem places_lt : places < 2 ^ 32 := by decide

structure State (O : Type) where
  /-- there is a handle here -/
  handle : Nat → Bool
  ptr : Nat → Option O
  refCount : O → BitVec 32
  live : O → Bool
  made : O → Nat
  deleted : O → Nat

namespace State

/-- `new T`. -/
def create (s : State O) (o : O) : State O :=
  { s with
    refCount := Function.update s.refCount o 0#32
    live := Function.update s.live o true
    made := Function.update s.made o (s.made o + 1) }

/-- `delete ptr`. -/
def delete (s : State O) (o : O) : State O :=
  { s with
    live := Function.update s.live o false
    deleted := Function.update s.deleted o (s.deleted o + 1) }

def setCount (s : State O) (o : O) (n : BitVec 32) : State O :=
  { s with refCount := Function.update s.refCount o n }

def setPtr (s : State O) (i : Nat) (v : Option O) : State O :=
  { s with ptr := Function.update s.ptr i v }

/-- `if (ptr && ptr->ref_count.add_fetch(-1) == 0) delete ptr`. -/
def drop (s : State O) : Option O → State O
  | none => s
  | some o =>
    let t := s.setCount o (s.refCount o - 1#32)
    if t.refCount o = 0#32 then t.delete o else t

/-- `Shared::reset`. -/
def reset (s : State O) (i : Nat) : State O := (s.drop (s.ptr i)).setPtr i none

/-- `if ((ptr = v)) ptr->ref_count.add_fetch(1)`. -/
def point (s : State O) (i : Nat) (v : Option O) : State O :=
  match v with
  | none => s.setPtr i none
  | some o => (s.setPtr i (some o)).setCount o (s.refCount o + 1#32)

/-- `ptr = rhs.ptr; rhs.ptr = nullptr`. -/
def move (s : State O) (i j : Nat) : State O := (s.setPtr i (s.ptr j)).setPtr j none

def setHandle (s : State O) (i : Nat) (b : Bool) : State O :=
  { s with handle := Function.update s.handle i b }

end State

inductive Op (O : Type)
  /-- `new T{}` -/
  | create (o : O)
  /-- `Shared(T* it)`; `Shared()` if null -/
  | ofRaw (i : Nat) (v : Option O)
  /-- `Shared(const Shared& rhs)` -/
  | copy (i j : Nat)
  /-- `Shared(Shared&& rhs)` -/
  | move (i j : Nat)
  /-- `operator=(const Shared& rhs)` -/
  | assignCopy (i j : Nat)
  /-- `operator=(Shared&& rhs)` -/
  | assignMove (i j : Nat)
  /-- `operator=(T* rhs)` -/
  | assignRaw (i : Nat) (v : Option O)
  /-- `~Shared()` -/
  | destroy (i : Nat)

/-- The pointer is null or points to a live object. -/
def State.Valid (s : State O) (v : Option O) : Prop := ∀ o ∈ v, s.live o = true

instance (s : State O) (v : Option O) : Decidable (s.Valid v) :=
  inferInstanceAs (Decidable (∀ o ∈ v, s.live o = true))

/-- An operation; there is none where the program has no business: on a place without a handle, in
a place that has one, on a raw pointer to a dead object. -/
def step (s : State O) : Op O → Option (State O)
  | .create o => if s.live o = false then some (s.create o) else none
  | .ofRaw i v =>
    if i < places ∧ s.handle i = false ∧ s.Valid v then some ((s.setHandle i true).point i v)
    else none
  | .copy i j =>
    if i < places ∧ s.handle i = false ∧ s.handle j = true then
      some ((s.setHandle i true).point i (s.ptr j))
    else none
  | .move i j =>
    if i < places ∧ s.handle i = false ∧ s.handle j = true then
      some ((s.setHandle i true).move i j)
    else none
  | .assignCopy i j =>
    if s.handle i = true ∧ s.handle j = true then
      some (if i = j then s else (s.reset i).point i ((s.reset i).ptr j))
    else none
  | .assignMove i j =>
    if s.handle i = true ∧ s.handle j = true then some ((s.reset i).move i j) else none
  | .assignRaw i v =>
    if s.handle i = true ∧ s.Valid v then some ((s.reset i).point i v) else none
  | .destroy i => if s.handle i = true then some ((s.reset i).setHandle i false) else none

/-- No handles and no objects. -/
def State.init : State O where
  handle _ := false
  ptr _ := none
  refCount _ := 0#32
  live _ := false
  made _ := 0
  deleted _ := 0

/-! ## The invariant -/

/-- How many handles point to `o`. -/
def State.pointing (s : State O) (o : O) : Nat := hits places s.ptr o

/-- Some handle points to `o`. -/
def State.Points (s : State O) (o : O) : Prop := ∃ i, s.handle i = true ∧ s.ptr i = some o

structure Good (s : State O) : Prop where
  place : ∀ {i}, s.handle i = true → i < places
  null : ∀ {i}, s.handle i = false → s.ptr i = none
  exact : ∀ {o}, s.live o = true → (s.refCount o).toNat = s.pointing o
  alive : ∀ {i o}, s.ptr i = some o → s.live o = true
  once : ∀ o, s.made o = s.deleted o + if s.live o = true then 1 else 0

namespace Good

variable {s : State O} {i j : Nat} {o : O}

theorem lt_places (G : Good s) (h : s.ptr i = some o) : i < places := by
  cases hi : s.handle i with
  | true => exact G.place hi
  | false => rw [G.null hi] at h; cases h

theorem points_iff (G : Good s) : s.Points o ↔ 0 < s.pointing o := by
  unfold State.pointing
  rw [hits_pos_iff]
  constructor
  · rintro ⟨i, -, hi⟩
    exact ⟨i, G.lt_places hi, hi⟩
  · rintro ⟨i, -, hi⟩
    refine ⟨i, ?_, hi⟩
    cases hh : s.handle i with
    | true => rfl
    | false => rw [G.null hh] at hi; cases hi

theorem pointing_le (o : O) : s.pointing o ≤ places := by
  unfold State.pointing hits
  exact (Finset.card_filter_le _ _).trans (Finset.card_range places).le

/-- An object without handles is at count zero. -/
theorem pointing_of_dead (G : Good s) (h : s.live o = false) : s.pointing o = 0 := by
  by_contra hne
  obtain ⟨i, -, hi⟩ := hits_pos_iff.mp (Nat.pos_of_ne_zero hne)
  rw [G.alive hi] at h
  cases h

theorem create (G : Good s) (h : s.live o = false) : Good (s.create o) := by
  constructor
  · exact G.place
  · exact G.null
  · intro o' ho'
    by_cases heq : o' = o
    · subst heq
      have hzero := G.pointing_of_dead h
      simpa [State.create, State.pointing] using hzero.symm
    · have hlive : s.live o' = true := by simpa [State.create, heq] using ho'
      simpa [State.create, State.pointing, heq] using G.exact hlive
  · intro i o' hi
    by_cases heq : o' = o
    · subst heq
      simp [State.create]
    · simpa [State.create, heq] using G.alive hi
  · intro o'
    have hold := G.once o'
    by_cases heq : o' = o
    · subst heq
      simpa [State.create, h] using hold
    · simpa [State.create, heq] using hold

theorem setHandle_true (G : Good s) (hi : i < places) : Good (s.setHandle i true) := by
  constructor
  · intro j hj
    by_cases hji : j = i
    · rwa [hji]
    · exact G.place (by simpa [State.setHandle, hji] using hj)
  · intro j hj
    by_cases hji : j = i
    · subst hji
      simp [State.setHandle] at hj
    · exact G.null (by simpa [State.setHandle, hji] using hj)
  · exact G.exact
  · exact G.alive
  · exact G.once

theorem setHandle_false (G : Good s) (hi : s.ptr i = none) : Good (s.setHandle i false) := by
  constructor
  · intro j hj
    by_cases hji : j = i
    · subst hji
      simp [State.setHandle] at hj
    · exact G.place (by simpa [State.setHandle, hji] using hj)
  · intro j hj
    by_cases hji : j = i
    · rwa [hji]
    · exact G.null (by simpa [State.setHandle, hji] using hj)
  · exact G.exact
  · exact G.alive
  · exact G.once

/-- Where a handle stops pointing and another one starts. -/
theorem pointing_setPtr (s : State O) (hi : i < places) (v : Option O) (o : O) :
    (s.setPtr i v).pointing o + (if s.ptr i = some o then 1 else 0) =
      s.pointing o + if v = some o then 1 else 0 :=
  hits_update hi s.ptr v o

end Good

/-! ## The parts of an operation

Every operator is made of a few parts, of which `reset` is the one that counts: a handle leaves
its object, and the object is deleted if it was the last. `reset_dies` says when. -/

/-- Some handle of `s` points to `o` and none of `t`. -/
def Leaves (s t : State O) (o : O) : Prop := s.Points o ∧ ¬t.Points o

/-- `o` is deleted between `s` and `t`. -/
def Dies (s t : State O) (o : O) : Prop := s.live o = true ∧ t.live o = false

section Reset

variable {s : State O} {i : Nat}

theorem reset_null (h : s.ptr i = none) : s.reset i = s := by
  have hptr : Function.update s.ptr i none = s.ptr := by
    rw [← h, Function.update_eq_self]
  simp only [State.reset, h, State.drop, State.setPtr, hptr]

@[simp] theorem reset_handle : (s.reset i).handle = s.handle := by
  unfold State.reset
  cases s.ptr i with
  | none => rfl
  | some o =>
    simp only [State.drop]
    split <;> rfl

@[simp] theorem reset_ptr : (s.reset i).ptr = Function.update s.ptr i none := by
  unfold State.reset
  cases s.ptr i with
  | none => rfl
  | some o =>
    simp only [State.drop]
    split <;> rfl

/-- The object the handle left is deleted if the handle was the last one. -/
theorem reset_live (o : O) :
    (s.reset i).live o = true ↔ s.live o = true ∧ ¬(s.ptr i = some o ∧ s.refCount o = 1#32) := by
  unfold State.reset
  cases hi : s.ptr i with
  | none => simp [State.drop, State.setPtr]
  | some o' =>
    have hzero : s.refCount o' - 1#32 = 0#32 ↔ s.refCount o' = 1#32 := by
      rw [BitVec.sub_eq_iff_eq_add, BitVec.zero_add]
    simp only [State.drop, State.setCount, Function.update_self, hzero]
    by_cases hone : s.refCount o' = 1#32
    · rw [if_pos hone]
      by_cases heq : o = o'
      · subst heq
        simp [State.setPtr, State.delete, hone]
      · simp [State.setPtr, State.delete, heq, Ne.symm heq]
    · rw [if_neg hone]
      by_cases heq : o = o'
      · subst heq
        simp [State.setPtr, hone]
      · simp [State.setPtr, Ne.symm heq]

theorem reset_refCount (o : O) :
    (s.reset i).refCount o = if s.ptr i = some o then s.refCount o - 1#32 else s.refCount o := by
  unfold State.reset
  cases s.ptr i with
  | none => rfl
  | some o' =>
    have hcount : ∀ t : State O, (if t.refCount o' = 0#32 then t.delete o' else t).refCount o =
        t.refCount o := by
      intro t
      split <;> rfl
    refine (hcount (s.setCount o' (s.refCount o' - 1#32))).trans ?_
    by_cases heq : o = o'
    · subst heq
      simp [State.setCount]
    · simp [State.setCount, heq, Ne.symm heq]

theorem reset_once (G : Good s) (o : O) :
    (s.reset i).made o = (s.reset i).deleted o + if (s.reset i).live o = true then 1 else 0 := by
  have hold := G.once o
  unfold State.reset
  cases hi : s.ptr i with
  | none => exact hold
  | some o' =>
    simp only [State.drop]
    split
    · by_cases heq : o = o'
      · subst heq
        simpa [State.setPtr, State.delete, State.setCount, G.alive hi] using hold
      · simpa [State.setPtr, State.delete, State.setCount, heq] using hold
    · exact hold

theorem pointing_reset (hi : i < places) (o : O) :
    (s.reset i).pointing o + (if s.ptr i = some o then 1 else 0) = s.pointing o := by
  have h := Good.pointing_setPtr s hi none o
  have hsame : (s.reset i).pointing o = (s.setPtr i none).pointing o := by
    simp only [State.pointing, reset_ptr]
    rfl
  rw [hsame, h]
  simp

theorem Good.reset (G : Good s) (hi : i < places) : Good (s.reset i) := by
  constructor
  · intro j hj
    rw [reset_handle] at hj
    exact G.place hj
  · intro j hj
    rw [reset_handle] at hj
    rw [reset_ptr]
    by_cases hji : j = i
    · rw [hji, Function.update_self]
    · rw [Function.update_of_ne hji, G.null hj]
  · intro o ho
    obtain ⟨hlive, hlast⟩ := (reset_live o).mp ho
    have hcount := G.exact hlive
    have hmove := pointing_reset (s := s) hi o
    rw [reset_refCount]
    by_cases hptr : s.ptr i = some o
    · rw [if_pos hptr] at hmove ⊢
      have hle : 1#32 ≤ s.refCount o := by
        rw [BitVec.le_def, hcount]
        exact Nat.le_of_add_left_le (Nat.le_of_eq hmove)
      rw [BitVec.toNat_sub_of_le hle, hcount]
      exact Nat.sub_eq_of_eq_add hmove.symm
    · rw [if_neg hptr] at hmove ⊢
      rw [hcount, ← hmove, Nat.add_zero]
  · intro j o hj
    rw [reset_ptr] at hj
    by_cases hji : j = i
    · rw [hji, Function.update_self] at hj
      cases hj
    · rw [Function.update_of_ne hji] at hj
      have hlive := G.alive hj
      refine (reset_live o).mpr ⟨hlive, fun ⟨hptr, hone⟩ => ?_⟩
      -- two handles, so the counter is at least two
      have hmove := pointing_reset (s := s) hi o
      have hleft : 0 < (s.reset i).pointing o := by
        refine hits_pos_iff.mpr ⟨j, G.lt_places hj, ?_⟩
        rw [reset_ptr, Function.update_of_ne hji, hj]
      have hcount := G.exact hlive
      rw [hone] at hcount
      rw [if_pos hptr, ← hcount] at hmove
      change _ + 1 = 1 at hmove
      omega
  · exact reset_once G

/-- What leaves the last handle dies, and nothing else does. -/
theorem reset_dies (G : Good s) (hi : i < places) (o : O) :
    Leaves s (s.reset i) o ↔ Dies s (s.reset i) o := by
  have G' := G.reset hi
  unfold Leaves Dies
  rw [G.points_iff, G'.points_iff, ← Bool.not_eq_true, reset_live]
  have hmove := pointing_reset (s := s) hi o
  constructor
  · rintro ⟨hbefore, hafter⟩
    have hptr : s.ptr i = some o := by
      by_contra hptr
      rw [if_neg hptr] at hmove
      omega
    have hlive := G.alive hptr
    have hone : s.refCount o = 1#32 := by
      rw [← BitVec.toNat_inj, G.exact hlive, ← hmove, if_pos hptr]
      exact congrArg (· + 1) (Nat.eq_zero_of_not_pos hafter)
    exact ⟨hlive, fun h => h.2 ⟨hptr, hone⟩⟩
  · rintro ⟨hlive, hdead⟩
    have hlast : s.ptr i = some o ∧ s.refCount o = 1#32 := by
      by_contra h
      exact hdead ⟨hlive, h⟩
    have hcount := G.exact hlive
    rw [hlast.2] at hcount
    rw [if_pos hlast.1, ← hcount] at hmove
    change _ + 1 = 1 at hmove
    rw [← hcount]
    exact ⟨Nat.one_pos, by omega⟩

end Reset

/-! ### A handle without an object takes one -/

section Point

variable {s : State O} {i j : Nat} {v : Option O}

@[simp] theorem point_ptr : (s.point i v).ptr = Function.update s.ptr i v := by
  cases v <;> rfl

@[simp] theorem point_live : (s.point i v).live = s.live := by
  cases v <;> rfl

@[simp] theorem point_handle : (s.point i v).handle = s.handle := by
  cases v <;> rfl

theorem point_refCount (o : O) :
    (s.point i v).refCount o = if v = some o then s.refCount o + 1#32 else s.refCount o := by
  cases v with
  | none => rfl
  | some o' =>
    by_cases heq : o = o'
    · subst heq
      simp [State.point, State.setCount]
    · simp [State.point, State.setCount, State.setPtr, heq, Ne.symm heq]

theorem Good.point (G : Good s) (hh : s.handle i = true) (hnull : s.ptr i = none)
    (hv : s.Valid v) : Good (s.point i v) := by
  have hi := G.place hh
  constructor
  · intro j hj
    rw [point_handle] at hj
    exact G.place hj
  · intro j hj
    rw [point_handle] at hj
    have hji : j ≠ i := by
      rintro rfl
      rw [hh] at hj
      cases hj
    rw [point_ptr, Function.update_of_ne hji, G.null hj]
  · intro o ho
    rw [point_live] at ho
    have hmove := Good.pointing_setPtr s hi v o
    have hsame : (s.point i v).pointing o = (s.setPtr i v).pointing o := by
      simp only [State.pointing, point_ptr]
      rfl
    rw [hnull, if_neg (by simp), Nat.add_zero] at hmove
    rw [point_refCount, hsame, hmove]
    by_cases hvo : v = some o
    · have hle := Good.pointing_le (s := s.setPtr i v) o
      have hlt := places_lt
      rw [hmove, if_pos hvo] at hle
      rw [if_pos hvo, if_pos hvo, BitVec.toNat_add, G.exact ho]
      change (s.pointing o + 1) % 2 ^ 32 = s.pointing o + 1
      exact Nat.mod_eq_of_lt (Nat.lt_of_le_of_lt hle hlt)
    · rw [if_neg hvo, if_neg hvo, G.exact ho, Nat.add_zero]
  · intro j o hj
    rw [point_ptr] at hj
    rw [point_live]
    by_cases hji : j = i
    · rw [hji, Function.update_self] at hj
      exact hv o hj
    · rw [Function.update_of_ne hji] at hj
      exact G.alive hj
  · intro o
    have hold := G.once o
    cases v <;> exact hold

/-- Nothing is left by it. -/
theorem points_point (hh : s.handle i = true) (hnull : s.ptr i = none) (o : O) :
    (s.point i v).Points o ↔ s.Points o ∨ v = some o := by
  unfold State.Points
  rw [point_handle, point_ptr]
  constructor
  · rintro ⟨j, hj, hptr⟩
    by_cases hji : j = i
    · rw [hji, Function.update_self] at hptr
      exact .inr hptr
    · rw [Function.update_of_ne hji] at hptr
      exact .inl ⟨j, hj, hptr⟩
  · rintro (⟨j, hj, hptr⟩ | rfl)
    · have hji : j ≠ i := by
        rintro rfl
        rw [hnull] at hptr
        cases hptr
      exact ⟨j, hj, by rw [Function.update_of_ne hji, hptr]⟩
    · exact ⟨i, hh, by rw [Function.update_self]⟩

end Point

/-! ### A handle hands its object over -/

section Move

variable {s : State O} {i j : Nat}

theorem move_ptr (hij : i ≠ j) (x : Nat) :
    (s.move i j).ptr x = if x = i then s.ptr j else if x = j then none else s.ptr x := by
  simp only [State.move, State.setPtr]
  by_cases hxj : x = j
  · subst hxj
    simp [Ne.symm hij]
  · rw [Function.update_of_ne hxj]
    by_cases hxi : x = i
    · subst hxi
      simp
    · simp [hxi, hxj]

theorem pointing_move (hij : i ≠ j) (hi : i < places) (hj : j < places) (hnull : s.ptr i = none)
    (o : O) : (s.move i j).pointing o = s.pointing o := by
  have hfirst := Good.pointing_setPtr s hi (s.ptr j) o
  have hsecond := Good.pointing_setPtr (s.setPtr i (s.ptr j)) hj none o
  have hptr : (s.setPtr i (s.ptr j)).ptr j = s.ptr j := by
    simp [State.setPtr, Ne.symm hij]
  rw [hnull, if_neg (by simp), Nat.add_zero] at hfirst
  rw [hptr, hfirst, if_neg (by simp : ¬(none : Option O) = some o), Nat.add_zero] at hsecond
  exact Nat.add_right_cancel hsecond

theorem Good.move (G : Good s) (hij : i ≠ j) (hi : s.handle i = true) (hj : s.handle j = true)
    (hnull : s.ptr i = none) : Good (s.move i j) := by
  constructor
  · exact G.place
  · intro x hx
    have hx' : s.handle x = false := hx
    rw [move_ptr hij]
    split
    · rename_i h
      rw [h, hi] at hx'
      cases hx'
    split
    · rfl
    · exact G.null hx'
  · intro o ho
    rw [pointing_move hij (G.place hi) (G.place hj) hnull]
    exact G.exact ho
  · intro x o hx
    rw [move_ptr hij] at hx
    split at hx
    · exact G.alive hx
    split at hx
    · cases hx
    · exact G.alive hx
  · exact G.once

theorem points_move (hij : i ≠ j) (hi : s.handle i = true) (hj : s.handle j = true)
    (hnull : s.ptr i = none) (o : O) : (s.move i j).Points o ↔ s.Points o := by
  constructor
  · rintro ⟨x, hx, hptr⟩
    rw [move_ptr hij] at hptr
    split at hptr
    · exact ⟨j, hj, hptr⟩
    split at hptr
    · cases hptr
    · exact ⟨x, hx, hptr⟩
  · rintro ⟨x, hx, hptr⟩
    by_cases hxj : x = j
    · refine ⟨i, hi, ?_⟩
      rw [move_ptr hij, if_pos rfl, ← hxj, hptr]
    · have hxi : x ≠ i := by
        rintro rfl
        rw [hnull] at hptr
        cases hptr
      refine ⟨x, hx, ?_⟩
      rw [move_ptr hij, if_neg hxi, if_neg hxj, hptr]

end Move

/-! ## The operations -/

/-- The object that the source of an assignment designates, with the destination. -/
def Op.assigns (s : State O) : Op O → Option (Nat × Option O)
  | .assignCopy i j => some (i, s.ptr j)
  | .assignMove i j => some (i, s.ptr j)
  | .assignRaw i v => some (i, v)
  | _ => none

/-- Two assignments are left out: of a handle to itself by moving, unless it is null, and of the
address of the object to the only handle that holds it. -/
def Op.sound (s : State O) : Op O → Prop
  | .assignMove i j => i = j → s.ptr i = none
  | .assignRaw i (some o) => ¬(s.ptr i = some o ∧ s.refCount o = 1#32)
  | _ => True

/-- What one operation keeps and does. -/
structure Kept (s t : State O) (op : Op O) : Prop where
  good : Good t
  dies : ∀ o, Leaves s t o ↔ Dies s t o
  assigned : ∀ {i v}, op.assigns s = some (i, v) → t.ptr i = v

section Steps

variable {s : State O} {i j : Nat} {v : Option O}

/-- Nothing is left and nothing dies. -/
theorem keeps_dies {t : State O} (hpoints : ∀ o, s.Points o → t.Points o) (hlive : t.live = s.live)
    (o : O) : Leaves s t o ↔ Dies s t o := by
  unfold Leaves Dies
  rw [hlive]
  constructor
  · rintro ⟨h, hn⟩
    exact absurd (hpoints o h) hn
  · rintro ⟨h, hn⟩
    rw [h] at hn
    cases hn

/-- The handle is reset, and then nothing more is left. -/
theorem reset_then (G : Good s) (hi : s.handle i = true) {t : State O}
    (hpoints : ∀ o, t.Points o → (s.reset i).Points o ∨ (s.reset i).live o = true)
    (hback : ∀ o, (s.reset i).Points o → t.Points o) (hlive : t.live = (s.reset i).live) (o : O) :
    Leaves s t o ↔ Dies s t o := by
  have hreset := reset_dies G (G.place hi) o
  have G' := G.reset (G.place hi)
  unfold Leaves Dies at *
  rw [hlive]
  constructor
  · rintro ⟨h, hn⟩
    exact hreset.mp ⟨h, fun h' => hn (hback o h')⟩
  · intro h
    obtain ⟨hp, hn⟩ := hreset.mpr h
    refine ⟨hp, fun ht => ?_⟩
    rcases hpoints o ht with h' | h'
    · exact hn h'
    · rw [h.2] at h'
      cases h'

theorem Good.ofHandle (G : Good s) (hi : i < places) (hh : s.handle i = false) (hv : s.Valid v)
    {op : Op O} (hop : op.assigns s = none) : Kept s ((s.setHandle i true).point i v) op := by
  have G' := G.setHandle_true hi
  have hnull : (s.setHandle i true).ptr i = none := G.null hh
  have hself : (s.setHandle i true).handle i = true := by simp [State.setHandle]
  refine ⟨G'.point hself hnull hv, keeps_dies (fun o ho => ?_) (by simp [State.setHandle]), ?_⟩
  · refine (points_point hself hnull o).mpr (.inl ?_)
    obtain ⟨x, hx, hptr⟩ := ho
    refine ⟨x, ?_, hptr⟩
    by_cases hxi : x = i
    · rw [hxi, hself]
    · simpa [State.setHandle, hxi] using hx
  · rw [hop]
    exact fun h => by cases h

theorem Good.assign (G : Good s) (hi : s.handle i = true) (hv : (s.reset i).Valid v) {op : Op O}
    (hop : ∀ {x w}, op.assigns s = some (x, w) → x = i ∧ w = v) :
    Kept s ((s.reset i).point i v) op := by
  have G' := G.reset (G.place hi)
  have hself : (s.reset i).handle i = true := by rw [reset_handle, hi]
  have hnull : (s.reset i).ptr i = none := by rw [reset_ptr, Function.update_self]
  refine ⟨G'.point hself hnull hv, reset_then G hi (fun o ho => ?_) (fun o ho => ?_) (by simp), ?_⟩
  · rcases (points_point hself hnull o).mp ho with h | h
    · exact .inl h
    · exact .inr (hv o h)
  · exact (points_point hself hnull o).mpr (.inl ho)
  · intro x w h
    obtain ⟨rfl, rfl⟩ := hop h
    rw [point_ptr, Function.update_self]

/-! ### One lemma for each operation

The operators as the source has them, each put together from its parts. The copying assignment
compares the two handles by address and the others do not; `Op.sound` is the condition that keeps
them from what they do to themselves. -/

theorem Good.steps_create {o : O} (G : Good s) (hdead : s.live o = false) :
    Kept s (s.create o) (.create o) := by
  refine ⟨G.create hdead, fun o' => ?_, fun h => by cases h⟩
  unfold Leaves Dies
  constructor
  · rintro ⟨hp, hn⟩
    exact absurd hp hn
  · rintro ⟨hlive, hgone⟩
    by_cases heq : o' = o
    · subst heq
      rw [hdead] at hlive
      cases hlive
    · have hsame : (s.create o).live o' = s.live o' := by simp [State.create, heq]
      rw [hsame, hlive] at hgone
      cases hgone

theorem Good.steps_move (G : Good s) (hi : i < places) (hh : s.handle i = false)
    (hj : s.handle j = true) : Kept s ((s.setHandle i true).move i j) (.move i j) := by
  have hij : i ≠ j := by
    rintro rfl
    rw [hh] at hj
    cases hj
  have hself : (s.setHandle i true).handle i = true := by simp [State.setHandle]
  have hother : (s.setHandle i true).handle j = true := by
    simpa [State.setHandle, Ne.symm hij] using hj
  have hnull : (s.setHandle i true).ptr i = none := G.null hh
  refine ⟨(G.setHandle_true hi).move hij hself hother hnull,
    keeps_dies (fun o ho => ?_) rfl, fun h => by cases h⟩
  refine (points_move hij hself hother hnull o).mpr ?_
  obtain ⟨x, hx, hptr⟩ := ho
  refine ⟨x, ?_, hptr⟩
  by_cases hxi : x = i
  · rw [hxi, hself]
  · simpa [State.setHandle, hxi] using hx

theorem Good.steps_assignCopy (G : Good s) (hi : s.handle i = true) :
    Kept s (if i = j then s else (s.reset i).point i ((s.reset i).ptr j)) (.assignCopy i j) := by
  by_cases hij : i = j
  · subst hij
    rw [if_pos rfl]
    refine ⟨G, keeps_dies (fun _ ho => ho) rfl, fun h => ?_⟩
    obtain ⟨rfl, rfl⟩ := Prod.mk.inj (Option.some.inj h)
    rfl
  · have hsrc : (s.reset i).ptr j = s.ptr j := by
      rw [reset_ptr, Function.update_of_ne (Ne.symm hij)]
    rw [if_neg hij]
    refine G.assign hi (fun o ho => (G.reset (G.place hi)).alive ho) fun h => ?_
    obtain ⟨rfl, rfl⟩ := Prod.mk.inj (Option.some.inj h)
    exact ⟨rfl, hsrc.symm⟩

/-- A null handle is moved to itself: nothing changes. -/
theorem move_self (hnull : s.ptr i = none) : (s.reset i).move i i = s := by
  have hptr : ∀ w : Option O, w = none → Function.update s.ptr i w = s.ptr := by
    rintro w rfl
    rw [← hnull, Function.update_eq_self]
  rw [reset_null hnull]
  simp only [State.move, State.setPtr, hptr _ hnull, hptr none rfl]

theorem Good.steps_assignMove (G : Good s) (hs : (Op.assignMove i j).sound s)
    (hi : s.handle i = true) (hj : s.handle j = true) :
    Kept s ((s.reset i).move i j) (.assignMove i j) := by
  by_cases hij : i = j
  · subst hij
    rw [move_self (hs rfl)]
    refine ⟨G, keeps_dies (fun _ ho => ho) rfl, fun h => ?_⟩
    obtain ⟨rfl, rfl⟩ := Prod.mk.inj (Option.some.inj h)
    rfl
  · have G' := G.reset (G.place hi)
    have hself : (s.reset i).handle i = true := by rw [reset_handle, hi]
    have hother : (s.reset i).handle j = true := by rw [reset_handle, hj]
    have hnull : (s.reset i).ptr i = none := by rw [reset_ptr, Function.update_self]
    have hsrc : (s.reset i).ptr j = s.ptr j := by
      rw [reset_ptr, Function.update_of_ne (Ne.symm hij)]
    refine ⟨G'.move hij hself hother hnull, reset_then G hi (fun o ho => .inl ?_)
      (fun o ho => ?_) rfl, fun h => ?_⟩
    · exact (points_move hij hself hother hnull o).mp ho
    · exact (points_move hij hself hother hnull o).mpr ho
    · obtain ⟨rfl, rfl⟩ := Prod.mk.inj (Option.some.inj h)
      rw [move_ptr hij, if_pos rfl, hsrc]

theorem Good.steps_assignRaw (G : Good s) (hs : (Op.assignRaw i v).sound s)
    (hi : s.handle i = true) (hv : s.Valid v) :
    Kept s ((s.reset i).point i v) (.assignRaw i v) := by
  refine G.assign hi (fun o ho => ?_) fun h => ?_
  · obtain rfl := ho
    exact (reset_live o).mpr ⟨hv o rfl, hs⟩
  · obtain ⟨rfl, rfl⟩ := Prod.mk.inj (Option.some.inj h)
    exact ⟨rfl, rfl⟩

/-- A place without an object points to nothing, whether it has a handle or not. -/
theorem points_setHandle_false (hi : s.handle i = true) (hnull : s.ptr i = none) (o : O) :
    (s.setHandle i false).Points o ↔ s.Points o := by
  constructor
  · rintro ⟨x, hx, hptr⟩
    refine ⟨x, ?_, hptr⟩
    by_cases hxi : x = i
    · rw [hxi, hi]
    · simpa [State.setHandle, hxi] using hx
  · rintro ⟨x, hx, hptr⟩
    have hxi : x ≠ i := by
      rintro rfl
      rw [hnull] at hptr
      cases hptr
    exact ⟨x, by simpa [State.setHandle, hxi] using hx, hptr⟩

theorem Good.steps_destroy (G : Good s) (hi : s.handle i = true) :
    Kept s ((s.reset i).setHandle i false) (.destroy i) := by
  have G' := G.reset (G.place hi)
  have hself : (s.reset i).handle i = true := by rw [reset_handle, hi]
  have hnull : (s.reset i).ptr i = none := by rw [reset_ptr, Function.update_self]
  have hpoints := points_setHandle_false hself hnull
  exact ⟨G'.setHandle_false hnull, reset_then G hi (fun o ho => .inl ((hpoints o).mp ho))
    (fun o ho => (hpoints o).mpr ho) rfl, fun h => by cases h⟩

theorem Good.step {op : Op O} {t : State O} (G : Good s) (hs : op.sound s)
    (h : step s op = some t) : Kept s t op := by
  cases op <;> dsimp only [Shared.step] at h <;> split at h
  case create.isTrue o hdead =>
    obtain rfl := Option.some.inj h
    exact G.steps_create hdead
  case ofRaw.isTrue i v hc =>
    obtain rfl := Option.some.inj h
    exact G.ofHandle hc.1 hc.2.1 hc.2.2 rfl
  case copy.isTrue i j hc =>
    obtain rfl := Option.some.inj h
    exact G.ofHandle hc.1 hc.2.1 (fun o ho => G.alive ho) rfl
  case move.isTrue i j hc =>
    obtain rfl := Option.some.inj h
    exact G.steps_move hc.1 hc.2.1 hc.2.2
  case assignCopy.isTrue i j hc =>
    obtain rfl := Option.some.inj h
    exact G.steps_assignCopy hc.1
  case assignMove.isTrue i j hc =>
    obtain rfl := Option.some.inj h
    exact G.steps_assignMove hs hc.1 hc.2
  case assignRaw.isTrue i v hc =>
    obtain rfl := Option.some.inj h
    exact G.steps_assignRaw hs hc.1 hc.2
  case destroy.isTrue i hi =>
    obtain rfl := Option.some.inj h
    exact G.steps_destroy hi
  -- there is no such operation
  all_goals cases h

theorem Good.init : Good (State.init : State O) := by
  constructor
  · exact fun h => by cases h
  · exact fun _ => rfl
  · exact fun h => by cases h
  · exact fun h => by cases h
  · exact fun _ => rfl

end Steps

/-! ## Runs -/

/-- In every run without the two assignments that `Op.sound` leaves out: the counter of a live
object is the number of handles that point to it, no handle points to a dead object, `delete` has
run once for each `new` but for the objects that live; and the next operation deletes exactly the
objects that their last handle leaves, and gives the destination of an assignment the object that
the source designated. -/
theorem handles_count {ops : List (Op O)} {s : State O}
    (hok : RunOk step (fun s op => Op.sound s op) State.init ops)
    (hr : runs step State.init ops = some s) :
    (∀ o, s.live o = true → (s.refCount o).toNat = s.pointing o) ∧
    (∀ i o, s.ptr i = some o → s.live o = true) ∧
    (∀ o, s.made o = s.deleted o + if s.live o = true then 1 else 0) ∧
    ∀ op t, op.sound s → step s op = some t →
      (∀ o, (s.Points o ∧ ¬t.Points o) ↔ (s.live o = true ∧ t.live o = false)) ∧
      ∀ i v, op.assigns s = some (i, v) → t.ptr i = v := by
  have G : Good s := runs_inv Good (fun s op t G hs h => (G.step hs h).good) .init hok hr
  refine ⟨fun o => G.exact, fun i o => G.alive, G.once, fun op t hs h => ?_⟩
  have K := G.step hs h
  exact ⟨K.dies, fun i v => K.assigned⟩

theorem handles_count_moved : ∃ s : State Unit,
    runs step State.init [.create (), .ofRaw 0 (some ()), .copy 1 0, .assignMove 0 1] = some s ∧
      (s.refCount ()).toNat = s.pointing () := by
  have hok : RunOk step (fun s op => Op.sound s op) State.init
      [Op.create (), .ofRaw 0 (some ()), .copy 1 0, .assignMove 0 1] := ?_
  · exact ⟨_, rfl, (handles_count hok rfl).1 () rfl⟩
  exact ⟨trivial, fun _ _ => ⟨trivial, fun _ _ => ⟨trivial, fun _ _ =>
    ⟨fun h => absurd h (by decide), fun _ _ => trivial⟩⟩⟩⟩

/-- The address of an object is assigned to its only handle, which then points to an object that
has been deleted. -/
theorem assigned_to_itself : ∃ s : State Unit,
    runs step State.init [.create (), .ofRaw 0 (some ()), .assignRaw 0 (some ())] = some s ∧
      s.ptr 0 = some () ∧ s.live () = false := by
  exact ⟨_, rfl, rfl, rfl⟩

end OsKernel.Shared
