import OsKernel.Sys.Model

/-!
# What the parts of a handler do

Rules for the operations that handlers are made of, exact where the operation is used for more
than one property. The access to user memory has one rule: either no address is refused and
nothing happened, or the process is dead.

Four developments walk over the same handlers, each with its own question: what becomes of the
tables (`Sys/Tables.lean`), of the handles (`Sys/Balance.lean`), which addresses are stored to
(`Sys/Pointers.lean`) and where the offsets go (`Sys/Cursors.lean`). They share this file, so
that a handler is unfolded once for each question and its parts are not unfolded again. Each
part has a rule of the form `wp x Q E k ↔ ..`, tagged for `simp`, which says what state it
leaves as a named change of the state before: `took`, `gave`, `stored`, `killed` and their
like. The named states then have their own small lemmas, one for each field.

The order in which a handler accesses its addresses does not show in these rules. That a range
of accesses goes through is that none of them is refused (`Call.refusesOne`), and that is
enough, as a process that is ended returns nothing. Only the stores that were made before the
end keep their order (`Call.before`): they were made.
-/

set_option autoImplicit false

namespace OsKernel.Sys

open Lib Prog

variable {α : Type} {c : Call} {p : Nat} {k : Kernel} {E : Leave → Kernel → Prop}

/-! ## Handles -/

/-- One more handle on `o`. -/
def Kernel.took (k : Kernel) (o : Obj) : Kernel :=
  { k with held := Function.update k.held o (k.held o + 1) }

/-- One handle on `o` less. -/
def Kernel.gave (k : Kernel) (o : Obj) : Kernel :=
  { k with held := Function.update k.held o (k.held o - 1) }

@[simp] theorem took_procs (o : Obj) : (k.took o).procs = k.procs := rfl
@[simp] theorem took_files (o : Obj) : (k.took o).files = k.files := rfl
@[simp] theorem took_child (o : Obj) : (k.took o).child = k.child := rfl
@[simp] theorem took_status (o : Obj) : (k.took o).status = k.status := rfl
@[simp] theorem took_next (o : Obj) : (k.took o).next = k.next := rfl
@[simp] theorem took_stores (o : Obj) : (k.took o).stores = k.stores := rfl
@[simp] theorem gave_procs (o : Obj) : (k.gave o).procs = k.procs := rfl
@[simp] theorem gave_files (o : Obj) : (k.gave o).files = k.files := rfl
@[simp] theorem gave_child (o : Obj) : (k.gave o).child = k.child := rfl
@[simp] theorem gave_status (o : Obj) : (k.gave o).status = k.status := rfl
@[simp] theorem gave_next (o : Obj) : (k.gave o).next = k.next := rfl
@[simp] theorem gave_stores (o : Obj) : (k.gave o).stores = k.stores := rfl

theorem held_took (o o' : Obj) :
    (k.took o).held o' = if o' = o then k.held o' + 1 else k.held o' := by
  unfold Kernel.took
  by_cases h : o' = o
  · subst h
    simp
  · simp [h]

theorem held_gave (o o' : Obj) :
    (k.gave o).held o' = if o' = o then k.held o' - 1 else k.held o' := by
  unfold Kernel.gave
  by_cases h : o' = o
  · subst h
    simp
  · simp [h]

@[simp] theorem took_gave (o : Obj) : (k.took o).gave o = k := by
  have hh : ((k.took o).gave o).held = k.held := by
    funext o'
    rw [held_gave, held_took]
    split <;> rfl
  cases k
  exact congrArg (Kernel.mk _ _ _ _ _ · _) hh

@[simp] theorem wp_take {Q : Unit → Kernel → Prop} (o : Obj) :
    wp (take o) Q E k ↔ Q () (k.took o) := Iff.rfl

@[simp] theorem wp_release {Q : Unit → Kernel → Prop} (o : Obj) :
    wp (release o) Q E k ↔ Q () (k.gave o) := Iff.rfl

@[simp] theorem wp_holding {Q : α → Kernel → Prop} (o : Obj) (body : Kern α) :
    wp (holding o body) Q E k ↔ wp body (fun a k' => Q a (k'.gave o)) E (k.took o) := by
  simp [holding]

/-! ## Processes -/

@[simp] theorem setProc_self (q : Nat) (proc : Process) : (k.setProc q proc).procs q = proc :=
  Function.update_self ..

theorem setProc_ne {q q' : Nat} (proc : Process) (h : q' ≠ q) :
    (k.setProc q proc).procs q' = k.procs q' := Function.update_of_ne h ..

@[simp] theorem setProc_files (q : Nat) (proc : Process) : (k.setProc q proc).files = k.files := rfl
@[simp] theorem setProc_status (q : Nat) (proc : Process) :
    (k.setProc q proc).status = k.status := rfl
@[simp] theorem setProc_next (q : Nat) (proc : Process) : (k.setProc q proc).next = k.next := rfl
@[simp] theorem setProc_held (q : Nat) (proc : Process) : (k.setProc q proc).held = k.held := rfl
@[simp] theorem setProc_stores (q : Nat) (proc : Process) :
    (k.setProc q proc).stores = k.stores := rfl

@[simp] theorem wp_process {Q : Process → Kernel → Prop} (q : Nat) :
    wp (process q) Q E k ↔ Q (k.procs q) k := Iff.rfl

@[simp] theorem wp_setProcess {Q : Unit → Kernel → Prop} (q : Nat) (proc : Process) :
    wp (setProcess q proc) Q E k ↔ Q () (k.setProc q proc) := Iff.rfl

/-- The status of `p` is set. -/
def Kernel.setStatus (k : Kernel) (p : Nat) (v : Word) : Kernel :=
  { k with status := Function.update k.status p (some v) }

@[simp] theorem setStatus_procs (v : Word) : (k.setStatus p v).procs = k.procs := rfl
@[simp] theorem setStatus_files (v : Word) : (k.setStatus p v).files = k.files := rfl
@[simp] theorem setStatus_next (v : Word) : (k.setStatus p v).next = k.next := rfl
@[simp] theorem setStatus_held (v : Word) : (k.setStatus p v).held = k.held := rfl
@[simp] theorem setStatus_stores (v : Word) : (k.setStatus p v).stores = k.stores := rfl

@[simp] theorem wp_setStatus {Q : Unit → Kernel → Prop} (v : Word) :
    wp (setStatus p v) Q E k ↔ Q () (k.setStatus p v) := Iff.rfl

/-- The thread of `p` has stopped. -/
def Kernel.stopped (k : Kernel) (p : Nat) : Kernel :=
  k.setProc p { k.procs p with life := .stopped }

@[simp] theorem stopped_files : (k.stopped p).files = k.files := rfl
@[simp] theorem stopped_next : (k.stopped p).next = k.next := rfl
@[simp] theorem stopped_held : (k.stopped p).held = k.held := rfl
@[simp] theorem stopped_stores : (k.stopped p).stores = k.stores := rfl

@[simp] theorem wp_stop {Q : α → Kernel → Prop} (l : Leave) :
    wp (stop p l) Q E k ↔ E l (k.stopped p) := Iff.rfl

/-- The page fault handler has ended `p`. -/
def Kernel.killed (k : Kernel) (p : Nat) : Kernel := (k.setStatus p failed).stopped p

@[simp] theorem killed_files : (k.killed p).files = k.files := rfl
@[simp] theorem killed_next : (k.killed p).next = k.next := rfl
@[simp] theorem killed_held : (k.killed p).held = k.held := rfl
@[simp] theorem killed_stores : (k.killed p).stores = k.stores := rfl

@[simp] theorem wp_kill {Q : α → Kernel → Prop} :
    wp (kill p) Q E k ↔ E .killed (k.killed p) := by
  have hback : (((k.took (.pcb p)).setStatus p failed).gave (.pcb p)) = k.setStatus p failed :=
    took_gave (k := k.setStatus p failed) (.pcb p)
  simp only [kill, wp_bind, wp_take, wp_setStatus, wp_release, wp_stop, hback]
  rfl

/-- One number is used up. -/
def Kernel.bumped (k : Kernel) : Kernel := { k with next := k.next + 1 }

@[simp] theorem bumped_procs : k.bumped.procs = k.procs := rfl
@[simp] theorem bumped_files : k.bumped.files = k.files := rfl
@[simp] theorem bumped_next : k.bumped.next = k.next + 1 := rfl
@[simp] theorem bumped_held : k.bumped.held = k.held := rfl
@[simp] theorem bumped_stores : k.bumped.stores = k.stores := rfl

@[simp] theorem wp_fresh {Q : Nat → Kernel → Prop} :
    wp fresh Q E k ↔ Q k.next k.bumped := Iff.rfl

/-! ## User memory -/

@[simp] theorem wp_touch {Q : Unit → Kernel → Prop} (a : Word) :
    wp (touch c p a) Q E k ↔ if c.refused a then E .killed (k.killed p) else Q () k := by
  unfold touch
  split
  · simp
  · simp

/-- The page fault handler refuses one of the addresses. -/
def Call.refusesOne (c : Call) (as : List Word) : Prop := ∃ a ∈ as, c.refused a = true

instance (as : List Word) : Decidable (c.refusesOne as) :=
  decidable_of_iff (as.any c.refused = true) (by simp [Call.refusesOne])

theorem refusesOne_cons (a : Word) (as : List Word) :
    c.refusesOne (a :: as) ↔ c.refused a = true ∨ c.refusesOne as := by
  simp [Call.refusesOne]

theorem refusesOne_append (as bs : List Word) :
    c.refusesOne (as ++ bs) ↔ c.refusesOne as ∨ c.refusesOne bs := by
  simp [Call.refusesOne, or_and_right, exists_or]

@[simp] theorem wp_touchAll {Q : Unit → Kernel → Prop} (as : List Word) :
    wp (touchAll c p as) Q E k ↔
      if c.refusesOne as then E .killed (k.killed p) else Q () k := by
  induction as with
  | nil => simp [touchAll, Call.refusesOne]
  | cons a as ih =>
    simp only [touchAll, wp_bind, wp_touch, ih, refusesOne_cons]
    by_cases ha : c.refused a = true
    · simp [ha]
    · simp [ha]

/-- The addresses have been stored to, in order. -/
def Kernel.stored (k : Kernel) (as : List Word) : Kernel :=
  { k with stores := as.reverse ++ k.stores }

@[simp] theorem stored_procs (as : List Word) : (k.stored as).procs = k.procs := rfl
@[simp] theorem stored_files (as : List Word) : (k.stored as).files = k.files := rfl
@[simp] theorem stored_next (as : List Word) : (k.stored as).next = k.next := rfl
@[simp] theorem stored_held (as : List Word) : (k.stored as).held = k.held := rfl
@[simp] theorem stored_stores (as : List Word) : (k.stored as).stores = as.reverse ++ k.stores := rfl

theorem stored_nil : k.stored [] = k := rfl

theorem stored_cons (a : Word) (as : List Word) :
    k.stored (a :: as) = ({ k with stores := a :: k.stores } : Kernel).stored as := by
  simp [Kernel.stored]

/-- The addresses before the first one that is refused. -/
def Call.before (c : Call) (as : List Word) : List Word := as.takeWhile fun a => !c.refused a

@[simp] theorem wp_storeAll {Q : Unit → Kernel → Prop} (as : List Word) :
    wp (storeAll c p as) Q E k ↔
      if c.refusesOne as then E .killed ((k.stored (c.before as)).killed p)
      else Q () (k.stored as) := by
  induction as generalizing k with
  | nil => simp [storeAll, Call.refusesOne, stored_nil]
  | cons a as ih =>
    simp only [storeAll, store, wp_bind, wp_touch, wp_modify, ih, refusesOne_cons, Call.before]
    by_cases ha : c.refused a = true
    · simp [ha, stored_nil]
    · simp [ha, stored_cons]

@[simp] theorem wp_arg {Q : Word → Kernel → Prop} (i : Nat) :
    wp (arg c p i) Q E k ↔
      if c.refusesOne (argBytes c i) then E .killed (k.killed p) else Q (c.args i) k := by
  simp [arg]

/-! ## Descriptor objects -/

@[simp] theorem wp_file {Q : File → Kernel → Prop} (o : Nat) :
    wp (file o) Q E k ↔ Q (k.files o) k := Iff.rfl

/-- The object has changed. -/
def Kernel.setFile (k : Kernel) (o : Nat) (f : File) : Kernel :=
  { k with files := Function.update k.files o f }

@[simp] theorem setFile_procs (o : Nat) (f : File) : (k.setFile o f).procs = k.procs := rfl
@[simp] theorem setFile_next (o : Nat) (f : File) : (k.setFile o f).next = k.next := rfl
@[simp] theorem setFile_held (o : Nat) (f : File) : (k.setFile o f).held = k.held := rfl
@[simp] theorem setFile_stores (o : Nat) (f : File) : (k.setFile o f).stores = k.stores := rfl

@[simp] theorem wp_setFile {Q : Unit → Kernel → Prop} (o : Nat) (f : File) :
    wp (setFile o f) Q E k ↔ Q () (k.setFile o f) := Iff.rfl

/-- The descriptor object `o` waits for `q`. -/
def Kernel.setChild (k : Kernel) (o q : Nat) : Kernel :=
  { k with child := Function.update k.child o q }

@[simp] theorem setChild_procs (o q : Nat) : (k.setChild o q).procs = k.procs := rfl
@[simp] theorem setChild_files (o q : Nat) : (k.setChild o q).files = k.files := rfl
@[simp] theorem setChild_next (o q : Nat) : (k.setChild o q).next = k.next := rfl
@[simp] theorem setChild_held (o q : Nat) : (k.setChild o q).held = k.held := rfl
@[simp] theorem setChild_stores (o q : Nat) : (k.setChild o q).stores = k.stores := rfl

@[simp] theorem wp_setChild {Q : Unit → Kernel → Prop} (o q : Nat) :
    wp (setChild o q) Q E k ↔ Q () (k.setChild o q) := Iff.rfl

/-! ## Files -/

/-- A handle on the node, if there is one. -/
def Kernel.tookNode (k : Kernel) : Option Nat → Kernel
  | none => k
  | some n => k.took (.node n)

@[simp] theorem tookNode_procs (n : Option Nat) : (k.tookNode n).procs = k.procs := by
  cases n <;> rfl

@[simp] theorem tookNode_files (n : Option Nat) : (k.tookNode n).files = k.files := by
  cases n <;> rfl

@[simp] theorem tookNode_next (n : Option Nat) : (k.tookNode n).next = k.next := by
  cases n <;> rfl

@[simp] theorem tookNode_stores (n : Option Nat) : (k.tookNode n).stores = k.stores := by
  cases n <;> rfl

theorem Kernel.ext_held {k k' : Kernel} (hsame : { k with held := k'.held } = k')
    (h : ∀ o, k.held o = k'.held o) : k = k' := by
  rw [← hsame, ← funext h]

/-- The first of two handles is given back. -/
theorem took_took_gave (o o' : Obj) : ((k.took o).took o').gave o = k.took o' := by
  refine Kernel.ext_held rfl fun o₂ => ?_
  simp only [held_gave, held_took]
  split <;> split <;> simp

theorem took_comm (o o' : Obj) : (k.took o).took o' = (k.took o').took o := by
  refine Kernel.ext_held rfl fun o₂ => ?_
  simp only [held_took]
  split <;> split <;> rfl

/-- A handle given back while a node is held. -/
theorem tookNode_gave (n : Option Nat) (o : Obj) :
    ((k.took o).tookNode n).gave o = k.tookNode n := by
  cases n with
  | none => exact took_gave o
  | some n => exact took_took_gave o (.node n)

/-- The node of a variable is given back. -/
def Kernel.gaveNode (k : Kernel) : Option Nat → Kernel
  | none => k
  | some n => k.gave (.node n)

theorem tookNode_gaveNode (n : Option Nat) : (k.tookNode n).gaveNode n = k := by
  cases n with
  | none => rfl
  | some n => exact took_gave (.node n)

theorem wp_releaseNode {Q : Unit → Kernel → Prop} (n : Option Nat) :
    wp (releaseNode n) Q E k ↔ Q () (k.gaveNode n) := by
  cases n <;> exact Iff.rfl

/-- What the two variables of `Ext2::open` hold at the end. -/
def ends : List Assign → Nat → Option Nat → Nat × Option Nat
  | [], cd, file => (cd, file)
  | .cd n :: rest, _, file => ends rest n file
  | .file n :: rest, cd, _ => ends rest cd (some n)

/-- At any time the search holds one handle for each of its variables. -/
theorem wp_walk {Q : Nat × Option Nat → Kernel → Prop} (l : List Assign) (cd : Nat)
    (file : Option Nat) :
    wp (walk l cd file) Q E ((k.took (.node cd)).tookNode file) ↔
      Q (ends l cd file) ((k.took (.node (ends l cd file).1)).tookNode (ends l cd file).2) := by
  induction l generalizing cd file with
  | nil => simp [walk, ends]
  | cons a rest ih =>
    cases a with
    | cd n =>
      have hstep : (((k.took (.node cd)).tookNode file).took (.node n)).gave (.node cd) =
          (k.took (.node n)).tookNode file := by
        cases file with
        | none => exact took_took_gave (.node cd) (.node n)
        | some m =>
          show (((k.took (.node cd)).took (.node m)).took (.node n)).gave (.node cd) =
            (k.took (.node n)).took (.node m)
          rw [took_comm (k := k), took_comm (k := k.took (.node m)), took_comm (k := k.took (.node m)),
            took_took_gave, took_comm]
      simp only [walk, assign, wp_bind, wp_take, wp_release, hstep, ends]
      exact ih n file
    | file n =>
      simp only [walk, assign, wp_bind, wp_take, ends]
      cases file with
      | none => exact ih cd (some n)
      | some m =>
        have hstep : ((((k.took (.node cd)).tookNode (some m)).took (.node n)).gave (.node m)) =
            (k.took (.node cd)).tookNode (some n) := took_took_gave (.node m) (.node n)
        simp only [wp_release, hstep]
        exact ih cd (some n)

/-- What `Ext2::open` returns. -/
def Call.opened (c : Call) (dir : Nat) : Option Nat :=
  if c.found then (ends c.search dir none).2 else none

@[simp] theorem wp_openFile {Q : Option Nat → Kernel → Prop} (dir : Nat) (path : Word) :
    wp (openFile c p dir path) Q E k ↔
      if c.refusesOne (strBytes c path) then
        E .killed (((k.took (.node dir)).took (.node dir)).killed p)
      else Q (c.opened dir) (k.tookNode (c.opened dir)) := by
  have hwalk : ∀ {Q : Nat × Option Nat → Kernel → Prop},
      wp (walk c.search dir none) Q E ((k.took (.node dir)).took (.node dir)) ↔
        Q (ends c.search dir none) (((k.took (.node dir)).took
          (.node (ends c.search dir none).1)).tookNode (ends c.search dir none).2) :=
    wp_walk (k := k.took (.node dir)) c.search dir none
  simp only [openFile, wp_holding, wp_bind, wp_take, wp_touchAll, hwalk]
  by_cases h : c.refusesOne (strBytes c path)
  · simp [h]
  · simp only [h, if_false, wp_release, wp_ite]
    have hcd := fun n : Option Nat => tookNode_gave (k := k.took (.node dir)) n
      (.node (ends c.search dir none).1)
    by_cases hf : c.found
    · simp only [hf, if_true, wp_pure, hcd, Call.opened]
      rw [tookNode_gave]
    · simp only [hf, Bool.false_eq_true, if_false, wp_bind, wp_pure, hcd, Call.opened]
      rw [wp_releaseNode, tookNode_gaveNode, took_gave]
      rfl

end OsKernel.Sys
