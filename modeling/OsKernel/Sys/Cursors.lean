import OsKernel.Sys.Balance
import OsKernel.Sys.Cursor

/-!
# Open files as shared cursors

What the descriptors of files are for, without the kernel: a process has descriptors, a
descriptor names a cursor, and a cursor is a position in a file. A child gets the descriptors
of its parent; every `open` makes a cursor of its own. The kernel does what this says, call by
call.

`Cursors` is the abstract model. It has no handles, no objects that are not open files, no
semaphores and no memory, and its positions are natural numbers and not words. `Step` says
what each call does to it, in the terms in which a manual would: `read` gives the number of
bytes that there are from the cursor on and moves it there, `seek` puts it where it is told
to. For a call that fails, is ended or is about something else `Step` has cases too, so that
every call of the kernel is a step, and none is left out of the theorem.

`Kernel.cursors` reads the abstract state off the kernel's. A descriptor counts if it is in
the table of a process that is there, and an object if it is an open file; so the exit of a
process takes its descriptors away in one step, although the kernel destroys them later, and
the console is not there. The proof is by calls: for the three that move cursors, what they
return and where the cursor goes; for those that change tables, `Effect` of `Sys/Tables.lean`;
for the rest, that no file has changed. Then runs are an induction (`run_cursors`).

What the buffer gets is a second theorem, over the bytes (`Delivers`). It is about each `read`
alone, since nothing but the cursor connects one `read` with another.

The sizes of files are given once for all calls of a run. In `Sys/Model.lean` each call has
its own; an image that does not change is what makes them one.
-/

set_option autoImplicit false

namespace OsKernel.Sys

open Lib Prog

structure Cursors where
  /-- the descriptors of the processes that are there -/
  table : Nat → Option Table
  /-- the file of an object and the position in it, if the object is an open file -/
  cursor : Nat → Option (Nat × Nat)

namespace Cursors

def setTable (s : Cursors) (p : Nat) (t : Option Table) : Cursors :=
  { s with table := Function.update s.table p t }

def setCursor (s : Cursors) (o n i : Nat) : Cursors :=
  { s with cursor := Function.update s.cursor o (some (n, i)) }

/-- The descriptor `des` of `p` names the cursor `o`, which is at `i` in the file `n`. -/
structure Names (s : Cursors) (p : Nat) (des : Word) (o n i : Nat) : Prop where
  slot : ∃ t, s.table p = some t ∧ t.get typeFd des = some o
  cursor : s.cursor o = some (n, i)

/-- The call `c` of `p`, what it returned if it did, and the cursors after it. -/
inductive Step (g : Config) (size : Nat → Nat) (p : Nat) (c : Call) (s : Cursors) :
    Option Word → Cursors → Prop
  | seek {o n i : Nat} (hn : c.num = 13#32) (h : s.Names p (c.args 0) o n i) :
      Step g size p c s (some (c.args 1)) (s.setCursor o n (c.args 1).toNat)
  | beyond {o n i : Nat} (hn : c.num = 12#32) (h : s.Names p (c.args 0) o n i)
      (hend : size n < i) : Step g size p c s (some failed) s
  | read {o n i m : Nat} (hn : c.num = 12#32) (h : s.Names p (c.args 0) o n i)
      (hend : i ≤ size n) (hbuffer : checkRange g (c.args 1) (c.args 2) = true)
      (hm : m = min (c.args 2).toNat (size n - i)) :
      Step g size p c s (some (BitVec.ofNat 32 m)) (s.setCursor o n (i + m))
  | refused (hn : c.num = 12#32) (hbuffer : checkRange g (c.args 1) (c.args 2) = false) :
      Step g size p c s (some failed) s
  | len {o n i : Nat} (hn : c.num = 11#32) (h : s.Names p (c.args 0) o n i) :
      Step g size p c s (some (BitVec.ofNat 32 (size n))) s
  | noFile (hn : c.num = 11#32 ∨ c.num = 12#32 ∨ c.num = 13#32)
      (h : ∀ o n i, ¬s.Names p (c.args 0) o n i) : Step g size p c s (some failed) s
  | opened {t : Table} {i : Fin 10} {o n : Nat} (hn : c.num = 10#32) (ht : s.table p = some t)
      (hfree : t.free = some i) (hnode : ∃ dir, c.opened dir = some n)
      (hfresh : ∀ q t' j, s.table q = some t' → t' j ≠ some o) :
      Step g size p c s (some (name typeFd i))
        ((s.setTable p (some (t.put i (some o)))).setCursor o n 0)
  | notOpened {t : Table} (hn : c.num = 10#32) (ht : s.table p = some t)
      (h : t.free = none ∨ ∃ dir, c.opened dir = none) : Step g size p c s (some failed) s
  | closed {t : Table} {i : Fin 10} {o : Nat} (hn : c.num = 6#32) (ht : s.table p = some t)
      (hdes : c.args 0 = name typeFd i) (ho : t i = some o) :
      Step g size p c s (some 0#32) (s.setTable p (some (t.put i none)))
  /-- a descriptor that is not one of a file, or none at all -/
  | closedOther {t : Table} {r : Word} (hn : c.num = 6#32) (ht : s.table p = some t)
      (h : t.get typeFd (c.args 0) = none) : Step g size p c s (some r) s
  | forked {t : Table} {q : Nat} {r : Word} (hn : c.num = 2#32) (ht : s.table p = some t)
      (hq : s.table q = none) : Step g size p c s (some r) (s.setTable q (some t))
  | notForked (hn : c.num = 2#32) : Step g size p c s (some failed) s
  | execed (hn : c.num = 9#32) : Step g size p c s none s
  | notExeced (hn : c.num = 9#32) : Step g size p c s (some failed) s
  /-- a call about something else -/
  | other {r : Word} (hn : ∀ n ∈ [2#32, 6#32, 9#32, 10#32, 11#32, 12#32, 13#32], c.num ≠ n) :
      Step g size p c s (some r) s
  /-- the process came to its end, by its own call or at an address that is refused -/
  | ended (h : c.num = 0#32 ∨ c.num = 7#32 ∨ ∃ a, c.refused a = true) :
      Step g size p c s none (s.setTable p none)

/-- A sequence of calls. -/
inductive Run (g : Config) (size : Nat → Nat) :
    Cursors → List (Nat × Call × Option Word) → Cursors → Prop
  | nil {s : Cursors} : Run g size s [] s
  | cons {s t u : Cursors} {p : Nat} {c : Call} {r : Option Word}
      {l : List (Nat × Call × Option Word)} (hs : Step g size p c s r t) (hr : Run g size t l u) :
      Run g size s ((p, c, r) :: l) u

end Cursors

/-! ## The cursors of the kernel -/

def Process.files (proc : Process) : Option Table :=
  if proc.life = .running then some proc.fdt else none

def File.cursor : File → Option (Nat × Nat)
  | .file node offset => some (node, offset.toNat)
  | .stdIn | .stdOut | .stdErr => none

def Kernel.cursors (k : Kernel) : Cursors where
  table p := (k.procs p).files
  cursor o := (k.files o).cursor

/-- What a call returned. -/
def returned (g : Config) (k : Kernel) (p : Nat) (c : Call) : Option Word :=
  match sysHandler g c p k with
  | .ok r _ => some r
  | .error _ _ => none

/-- The calls of a run, with what they returned. -/
def calls (g : Config) : Kernel → List Event → List (Nat × Call × Option Word)
  | _, [] => []
  | k, e :: es =>
    let rest := match step g k e with
      | some k' => calls g k' es
      | none => []
    match e with
    | .call p c => (p, c, returned g k p c) :: rest
    | .reap _ => rest

/-- The files have the sizes `size`. -/
def Event.Sized (size : Nat → Nat) : Event → Prop
  | .call _ c => ∀ n, (c.size n).toNat = size n
  | .reap _ => True

variable {g : Config} {size : Nat → Nat} {c : Call} {p : Nat} {k k' : Kernel}

/-! ## Files that stay as they are -/

theorem still_files {x : Kern Word} (h : Still k x) :
    wp x (fun _ k' => k'.files = k.files) (fun _ k' => k'.files = k.files) k :=
  wp_mono h (fun _ _ h => h.2) fun _ _ h => h.2

theorem wait_files :
    wp (wait c p) (fun _ k' => k'.files = k.files) (fun _ k' => k'.files = k.files) k := by
  simp only [wait, wp_bind, wp_arg, wp_processWait]
  split
  · rfl
  split
  · rfl
  cases hslot : k.lookup p .pd (c.args 0) with
  | none => trivial
  | some o =>
    simp only
    cases k.status (k.child o) with
    | none => trivial
    | some v =>
      simp only
      split
      · rfl
      · obtain ⟨i, hdes, ho⟩ := (Table.get_eq_some isTag_pd).mp hslot
        exact ⟨i, hdes, ho, rfl⟩

/-- `execl` returns a failure, or goes on to the program, or is ended at an address. -/
def Execs (c : Call) (k : Kernel) (x : Kern Word) : Prop :=
  wp x (fun r k' => r = failed ∧ k'.files = k.files)
    (fun l k' => ((∃ entry esp, l = .user entry esp) ∨ l = .killed ∧ ∃ a, c.refused a = true) ∧
      k'.files = k.files) k

theorem exec_execs {n : Nat} : Execs c k (exec g c p n) := by
  have refused : ∀ {as : List Word}, c.refusesOne as → ∃ a, c.refused a = true :=
    fun ⟨a, _, ha⟩ => ⟨a, ha⟩
  simp only [Execs, exec, wp_bind, wp_touchAll, wp_holding, wp_pure]
  split
  · exact ⟨.inr ⟨trivial, refused ‹_›⟩, rfl⟩
  cases himage : c.image n with
  | none => exact ⟨rfl, rfl⟩
  | some image =>
    simp only [wp_bind, wp_touchAll, wp_process, wp_setProcess, wp_holding, wp_storeAll, wp_release,
      wp_throw]
    split
    · exact ⟨.inr ⟨trivial, refused ‹_›⟩, rfl⟩
    split
    · exact ⟨.inr ⟨trivial, refused ‹_›⟩, rfl⟩
    split
    · exact ⟨.inr ⟨trivial, refused ‹_›⟩, rfl⟩
    split
    · exact ⟨.inr ⟨trivial, refused ‹_›⟩, rfl⟩
    · exact ⟨.inl ⟨_, _, rfl⟩, rfl⟩

theorem execl_execs : Execs c k (execl g c p) := by
  have refused : ∀ {as : List Word}, c.refusesOne as → ∃ a, c.refused a = true :=
    fun ⟨a, _, ha⟩ => ⟨a, ha⟩
  simp only [Execs, execl, wp_bind, wp_process, wp_holding, wp_arg, wp_openFile]
  split
  · exact ⟨.inr ⟨trivial, refused ‹_›⟩, rfl⟩
  split
  · exact ⟨.inr ⟨trivial, refused ‹_›⟩, rfl⟩
  cases hnode : c.opened (k.procs p).cd with
  | none => exact ⟨rfl, rfl⟩
  | some node =>
    simp only [wp_bind, wp_release, wp_pure]
    have h := exec_execs (g := g) (c := c) (p := p) (n := node)
      (k := (k.took .fs).tookNode (some node))
    simpa only [Execs, gave_files, took_files, tookNode_files] using h

/-! ## One call -/

/-- The calls that move no cursor and make none. -/
theorem handler_files {n : Nat} (h10 : n ≠ 10) (h12 : n ≠ 12) (h13 : n ≠ 13) :
    wp (handler g c p n) (fun _ k' => k'.files = k.files) (fun _ k' => k'.files = k.files) k := by
  unfold handler
  split
  · exact still_files exit_still
  · exact still_files write_still
  · exact still_files fork_still
  · exact still_files sem_still
  · exact still_files up_still
  · exact still_files up_still
  · exact still_files close_still
  · exact still_files shutdown_still
  · exact wait_files
  · exact wp_mono execl_execs (fun _ _ h => h.2) fun _ _ h => h.2
  · exact absurd rfl h10
  · exact still_files len_still
  · exact absurd rfl h12
  · exact absurd rfl h13
  · rfl

/-- `open`, with the object that it makes. -/
theorem wp_open : wp (open_ c p)
    (fun r k' => (r = failed ∧ k'.files = k.files ∧ k'.procs = k.procs ∧
        ((k.procs p).fdt.free = none ∨ ∃ dir, c.opened dir = none)) ∨
      ∃ i node, (k.procs p).fdt.free = some i ∧ (∃ dir, c.opened dir = some node) ∧
        r = name typeFd i ∧ k'.files = Function.update k.files k.next (.file node 0#32) ∧
        k'.procs = Function.update k.procs p ((k.procs p).putSlot .fd i (some k.next)))
    (Ended c k) k := by
  simp only [open_, wp_bind, wp_process, wp_holding, wp_arg, wp_openFile]
  split
  · exact .of_refuses ‹_› rfl
  split
  · exact .of_refuses ‹_› rfl
  cases hnode : c.opened (k.procs p).cd with
  | none => exact .inl ⟨rfl, rfl, rfl, .inr ⟨_, hnode⟩⟩
  | some node =>
    simp only [wp_bind, wp_holding, setFd, wp_process, took_procs, tookNode_procs]
    cases hfree : (k.procs p).fdt.free with
    | none =>
      simp only [wp_pure, wp_release, gave_files, gave_procs, took_files, took_procs, tookNode_files,
        tookNode_procs]
      exact .inl ⟨trivial, trivial, trivial, .inl trivial⟩
    | some i =>
      simp only [wp_bind, wp_fresh, wp_holding, wp_setFile, wp_take, wp_pure, wp_process,
        wp_setProcess, wp_release]
      exact .inr ⟨i, node, rfl, ⟨_, hnode⟩, rfl, rfl, rfl⟩

theorem Stays.leaves {as : List Word} {x : Kern Word} (h : Stays c as k x) :
    wp x (fun _ _ => True) (fun l _ => l ≠ .exit ∧ l ≠ .shutdown) k := by
  refine wp_mono h (fun _ _ _ => trivial) fun l k' h => ?_
  rcases h with ⟨rfl, -⟩ | ⟨rfl, -⟩
  · exact ⟨nofun, nofun⟩
  · exact ⟨nofun, nofun⟩

/-- Only two calls end their process. -/
theorem handler_leaves {n : Nat} (h0 : n ≠ 0) (h7 : n ≠ 7) :
    wp (handler g c p n) (fun _ _ => True) (fun l _ => l ≠ .exit ∧ l ≠ .shutdown) k := by
  unfold handler
  split
  · exact absurd rfl h0
  · exact write_stays.leaves
  · exact (fork_stays (c := c)).leaves
  · exact sem_stays.leaves
  · exact up_stays.leaves
  · exact up_stays.leaves
  · exact close_stays.leaves
  · exact absurd rfl h7
  · exact wait_stays.leaves
  · refine wp_mono execl_execs (fun _ _ _ => trivial) fun l k' h => ?_
    rcases h with ⟨⟨_, _, rfl⟩ | ⟨rfl, -⟩, -⟩
    · exact ⟨nofun, nofun⟩
    · exact ⟨nofun, nofun⟩
  · exact open_stays.leaves
  · exact len_stays.leaves
  · exact read_stays.leaves
  · exact seek_stays.leaves
  · trivial

/-! ## The cursors after a call -/

theorem cursors_same (hf : k'.files = k.files)
    (hp : ∀ q, (k'.procs q).files = (k.procs q).files) : k'.cursors = k.cursors := by
  unfold Kernel.cursors
  rw [hf, funext hp]

theorem files_running {proc : Process} (h : proc.life = .running) : proc.files = some proc.fdt :=
  if_pos h

theorem files_not_running {proc : Process} (h : proc.life ≠ .running) : proc.files = none := if_neg h

/-- The tables of another kind do not matter. -/
theorem files_putSlot (proc : Process) {κ : Kind} (hκ : κ ≠ .fd) (i : Fin 10) (v : Option Nat) :
    (proc.putSlot κ i v).files = proc.files := by
  cases κ with
  | fd => exact absurd rfl hκ
  | pd => rfl
  | sd => rfl

/-- One process has changed. -/
theorem cursors_update {proc : Process} {t : Option Table} (hf : k'.files = k.files)
    (hp : k'.procs = Function.update k.procs p proc) (ht : proc.files = t) :
    k'.cursors = k.cursors.setTable p t := by
  unfold Kernel.cursors Cursors.setTable
  rw [hf, hp]
  congr 1
  funext q
  by_cases hq : q = p
  · subst hq
    rw [Function.update_self, Function.update_self, ht]
  · rw [Function.update_of_ne hq, Function.update_of_ne hq]

/-- One open file has changed. -/
theorem cursors_setFile {o node : Nat} {offset : Word}
    (hf : k'.files = Function.update k.files o (.file node offset)) :
    k'.cursors.cursor = Function.update k.cursors.cursor o (some (node, offset.toNat)) := by
  funext o'
  unfold Kernel.cursors
  simp only [hf]
  by_cases ho : o' = o
  · subst ho
    rw [Function.update_self, Function.update_self]
    rfl
  · rw [Function.update_of_ne ho, Function.update_of_ne ho]

/-- A descriptor names a cursor exactly if it names an open file. -/
theorem names_iff (hp : (k.procs p).life = .running) {o n i : Nat} :
    k.cursors.Names p (c.args 0) o n i ↔ ∃ offset, c.OnFile p k o n offset ∧ offset.toNat = i := by
  have htable : k.cursors.table p = some (k.procs p).fdt := files_running hp
  constructor
  · rintro ⟨⟨t, ht, hslot⟩, hcursor⟩
    rw [htable] at ht
    obtain rfl := Option.some.inj ht
    have hc : (k.files o).cursor = some (n, i) := hcursor
    cases hfile : k.files o with
    | file node offset =>
      rw [hfile] at hc
      cases hc
      exact ⟨offset, ⟨hslot, hfile⟩, rfl⟩
    | stdIn | stdOut | stdErr =>
      rw [hfile] at hc
      cases hc
  · rintro ⟨offset, F, rfl⟩
    refine ⟨⟨_, htable, F.get⟩, ?_⟩
    show (k.files o).cursor = _
    rw [F.file]
    rfl

/-! ### `len`, `read` and `seek`

The calls on an open file, by what its descriptor names. Two descriptors may name one object, in
one process or in several, and then they have one cursor; the abstract system has this as its own
state, so a step is compared by the object and not by the descriptor. -/

/-- A descriptor of something else, or none. -/
def NoFile (c : Call) (p : Nat) (k : Kernel) : Prop := ∀ o node offset, ¬c.OnFile p k o node offset

theorem wp_len_none (h : NoFile c p k) :
    wp (len c p) (fun r k' => r = failed ∧ k' = k) (fun _ _ => True) k := by
  simp only [len, wp_bind, wp_arg, wp_process, wp_holding]
  split
  · trivial
  cases ho : (k.procs p).fdt.get typeFd (c.args 0) with
  | none => exact ⟨rfl, took_gave _⟩
  | some o =>
    simp only [fdLen, wp_bind, wp_file, took_files]
    cases hf : k.files o with
    | file node offset => exact absurd ⟨ho, hf⟩ (h o node offset)
    | stdIn | stdOut | stdErr => exact ⟨rfl, took_gave _⟩

theorem wp_seek_none (h : NoFile c p k) :
    wp (seek c p) (fun r k' => r = failed ∧ k' = k) (fun _ _ => True) k := by
  simp only [seek, wp_bind, wp_arg, wp_process, wp_holding]
  split
  · trivial
  split
  · trivial
  cases ho : (k.procs p).fdt.get typeFd (c.args 0) with
  | none => exact ⟨rfl, took_gave _⟩
  | some o =>
    simp only [fdSeek, wp_bind, wp_file, took_files]
    cases hf : k.files o with
    | file node offset => exact absurd ⟨ho, hf⟩ (h o node offset)
    | stdIn | stdOut | stdErr => exact ⟨rfl, took_gave _⟩

theorem wp_read_none (h : NoFile c p k) :
    wp (read g c p) (fun r k' => r = failed ∧ k' = k) (fun _ _ => True) k := by
  refine wp_mono wp_read (fun r k' hr => ?_) fun _ _ _ => trivial
  rcases hr with ⟨hr, hk, -⟩ | ⟨cnt, -, -, ⟨o, node, offset, ho, hf, -, -⟩, -⟩
  · exact ⟨hr, hk⟩
  · exact absurd ⟨ho, hf⟩ (h o node offset)

/-- A call on a descriptor that names no open file. -/
theorem none_step (hn : c.num = 11#32 ∨ c.num = 12#32 ∨ c.num = 13#32) (h : NoFile c p k) {r : Word}
    (hr : sysHandler g c p k = .ok r k') : r = failed ∧ k' = k := by
  have h' : NoFile c p (k.took (.pcb p)) := fun o node offset F => h o node offset ⟨F.lookup, F.file⟩
  have hw : wp (sysHandler g c p) (fun r k' => r = failed ∧ k' = k) (fun _ _ => True) k := by
    have back : ∀ r k', r = failed ∧ k' = k.took (.pcb p) → r = failed ∧ k'.gave (.pcb p) = k := by
      rintro r k' ⟨hr, rfl⟩
      exact ⟨hr, took_gave _⟩
    rcases hn with hn | hn | hn
    · rw [wp_sysHandler (by rw [hn]; decide), hn]
      exact wp_mono (wp_len_none h') back fun _ _ h => h
    · rw [wp_sysHandler (by rw [hn]; decide), hn]
      exact wp_mono (wp_read_none h') back fun _ _ h => h
    · rw [wp_sysHandler (by rw [hn]; decide), hn]
      exact wp_mono (wp_seek_none h') back fun _ _ h => h
  have hok := wp_ok hw hr
  exact hok

/-- A `read` that was let through moves the cursor inside of the file. -/
theorem advance_toNat {node : Nat} {offset : Word} (hle : ¬c.size node < offset) :
    (offset + BitVec.ofNat 32 (c.count node offset)).toNat = offset.toNat + c.count node offset := by
  have hlt := (c.size node).isLt
  have hcount : c.count node offset ≤ (c.size node).toNat - offset.toNat := Nat.min_le_right ..
  rw [BitVec.lt_def] at hle
  rw [BitVec.toNat_add, BitVec.toNat_ofNat]
  omega

variable {o node : Nat} {offset : Word} {r : Word}

theorem seek_step (hn : c.num = 13#32) (hp : (k.procs p).life = .running)
    (F : c.OnFile p k o node offset) (hr : sysHandler g c p k = .ok r k') :
    Cursors.Step g size p c k.cursors (some r) k'.cursors := by
  have hw := wp_seek_file (F.took (.pcb p))
  have hw' : wp (sysHandler g c p) (fun r k' => r = c.args 1 ∧
      k' = k.setFile o (.file node (c.args 1))) (fun _ _ => True) k := by
    rw [wp_sysHandler (by rw [hn]; decide), hn]
    refine wp_mono hw (fun r k' h => ⟨h.2.1, ?_⟩) fun _ _ _ => trivial
    rw [h.2.2, took_setFile_gave]
  obtain ⟨rfl, rfl⟩ := wp_ok hw' hr
  have hc : (k.setFile o (.file node (c.args 1))).cursors =
      k.cursors.setCursor o node (c.args 1).toNat :=
    congrArg (Cursors.mk _) (cursors_setFile (k := k) rfl)
  rw [hc]
  exact .seek hn ((names_iff hp).mpr ⟨offset, F, rfl⟩)

theorem len_step (hn : c.num = 11#32) (hp : (k.procs p).life = .running)
    (hsize : ∀ n, (c.size n).toNat = size n) (F : c.OnFile p k o node offset)
    (hr : sysHandler g c p k = .ok r k') :
    Cursors.Step g size p c k.cursors (some r) k'.cursors := by
  have hw : wp (sysHandler g c p) (fun r k' => r = c.size node ∧ k' = k) (fun _ _ => True) k := by
    rw [wp_sysHandler (by rw [hn]; decide), hn]
    refine wp_mono (wp_len_file (F.took (.pcb p))) (fun r k' h => ⟨h.1, ?_⟩) fun _ _ _ => trivial
    rw [h.2, took_gave]
  obtain ⟨rfl, rfl⟩ := wp_ok hw hr
  have hlen : c.size node = BitVec.ofNat 32 (size node) := by
    rw [← hsize, BitVec.ofNat_toNat, BitVec.setWidth_eq]
  rw [hlen]
  exact .len hn ((names_iff hp).mpr ⟨offset, F, rfl⟩)

/-- How a `read` of an open file returns. -/
theorem read_returns (hn : c.num = 12#32) (F : c.OnFile p k o node offset)
    (hr : sysHandler g c p k = .ok r k') :
    (r = failed ∧ k' = k ∧ (checkRange g (c.args 1) (c.args 2) = false ∨ c.size node < offset)) ∨
      (checkRange g (c.args 1) (c.args 2) = true ∧ ¬c.size node < offset ∧
        r = BitVec.ofNat 32 (c.count node offset) ∧ k' = k.advanced c o node offset) := by
  have hback : ∀ o', ((k.took o').advanced c o node offset).gave o' = k.advanced c o node offset :=
    fun o' => took_gave (k := k.advanced c o node offset) o'
  have hw : wp (sysHandler g c p) (fun r k' => (r = failed ∧ k' = k ∧
      (checkRange g (c.args 1) (c.args 2) = false ∨ c.size node < offset)) ∨
      (checkRange g (c.args 1) (c.args 2) = true ∧ ¬c.size node < offset ∧
        r = BitVec.ofNat 32 (c.count node offset) ∧ k' = k.advanced c o node offset))
      (fun _ _ => True) k := by
    rw [wp_sysHandler (by rw [hn]; decide), hn]
    refine wp_mono (wp_read_file (F.took (.pcb p))) (fun r k' h => ?_) fun _ _ _ => trivial
    rcases h with ⟨hr, rfl, hwhy⟩ | ⟨hok, hle, hr, rfl⟩
    · exact .inl ⟨hr, took_gave _, hwhy⟩
    · exact .inr ⟨hok, hle, hr, hback _⟩
  have hok := wp_ok hw hr
  exact hok

theorem read_step (hn : c.num = 12#32) (hp : (k.procs p).life = .running)
    (hsize : ∀ n, (c.size n).toNat = size n) (F : c.OnFile p k o node offset)
    (hr : sysHandler g c p k = .ok r k') :
    Cursors.Step g size p c k.cursors (some r) k'.cursors := by
  have hnames := (names_iff hp).mpr ⟨offset, F, rfl⟩
  rcases read_returns hn F hr with ⟨rfl, rfl, hno | hlt⟩ | ⟨hok, hle, rfl, rfl⟩
  · exact .refused hn hno
  · refine .beyond hn hnames ?_
    rw [← hsize]
    exact hlt
  · have hc : (k.advanced c o node offset).cursors =
        k.cursors.setCursor o node (offset.toNat + c.count node offset) := by
      rw [← advance_toNat hle]
      exact congrArg (Cursors.mk _) (cursors_setFile (k := k) rfl)
    rw [hc]
    refine .read hn hnames ?_ hok ?_
    · rw [← hsize]
      exact Nat.not_lt.mp hle
    · unfold Call.count delivered
      rw [hsize]

/-! ### The calls that change the descriptors

`open`, `close` and `fork` change which object a descriptor names. `fork` gives the child the same
objects, so that the cursors are shared from then on; here is the step in which that happens. -/

theorem open_step (T : Tidy k.procs k.next) (hn : c.num = 10#32) (hp : (k.procs p).life = .running)
    (hr : sysHandler g c p k = .ok r k') :
    Cursors.Step g size p c k.cursors (some r) k'.cursors := by
  have htable : k.cursors.table p = some (k.procs p).fdt := files_running hp
  have hw : wp (sysHandler g c p) (fun r k' => (r = failed ∧ k'.files = k.files ∧
      k'.procs = k.procs ∧ ((k.procs p).fdt.free = none ∨ ∃ dir, c.opened dir = none)) ∨
      ∃ i node, (k.procs p).fdt.free = some i ∧ (∃ dir, c.opened dir = some node) ∧
        r = name typeFd i ∧ k'.files = Function.update k.files k.next (.file node 0#32) ∧
        k'.procs = Function.update k.procs p ((k.procs p).putSlot .fd i (some k.next)))
      (fun _ _ => True) k := by
    rw [wp_sysHandler (by rw [hn]; decide), hn]
    exact wp_mono (wp_open (k := k.took (.pcb p))) (fun _ _ h => h) fun _ _ _ => trivial
  rcases wp_ok hw hr with ⟨rfl, hf, hprocs, hno⟩ | ⟨i, node, hfree, hnode, rfl, hf, hprocs⟩
  · rw [cursors_same hf fun q => by rw [hprocs]]
    exact .notOpened hn htable hno
  · have hfiles : ((k.procs p).putSlot .fd i (some k.next)).files =
        some ((k.procs p).fdt.put i (some k.next)) := files_running hp
    have hc : k'.cursors = (k.cursors.setTable p
        (some ((k.procs p).fdt.put i (some k.next)))).setCursor k.next node 0 := by
      have ht : ({ k' with files := k.files } : Kernel).cursors =
          k.cursors.setTable p (some ((k.procs p).fdt.put i (some k.next))) :=
        cursors_update rfl hprocs hfiles
      have hcur := cursors_setFile hf
      unfold Cursors.setCursor
      rw [← ht]
      exact congrArg (Cursors.mk _) hcur
    rw [hc]
    refine .opened hn htable hfree hnode fun q t' j ht' hj => ?_
    have hq : (k.procs q).files = some t' := ht'
    unfold Process.files at hq
    split at hq
    · obtain rfl := Option.some.inj hq
      have hlt := (T.proc q).below (κ := .fd) hj
      exact Nat.lt_irrefl _ hlt
    · cases hq

/-- The files after a call that moves no cursor. -/
theorem files_same (h10 : c.num ≠ 10#32) (h12 : c.num ≠ 12#32) (h13 : c.num ≠ 13#32) :
    wp (sysHandler g c p) (fun _ k' => k'.files = k.files) (fun _ k' => k'.files = k.files) k := by
  by_cases hlt : c.num.toNat < 14
  · have hnum : ∀ {n : Nat}, c.num ≠ BitVec.ofNat 32 n → c.num.toNat ≠ n := fun hne h =>
      hne (by rw [← h, BitVec.ofNat_toNat, BitVec.setWidth_eq])
    rw [wp_sysHandler hlt]
    exact handler_files (k := k.took (.pcb p)) (hnum h10) (hnum h12) (hnum h13)
  · unfold sysHandler
    rw [if_pos (by rw [BitVec.le_def]; exact Nat.not_lt.mp hlt)]
    rfl

/-- A descriptor of a file is closed. -/
theorem Process.close_file {proc : Process} {des : Word}
    (h : proc.fdt.get typeFd des = some o) :
    ∃ i, des = name typeFd i ∧ proc.fdt i = some o ∧ proc.close des = some (proc.putSlot .fd i none) := by
  obtain ⟨i, rfl, hi⟩ := (Table.get_eq_some isTag_fd).mp h
  refine ⟨i, rfl, hi, ?_⟩
  have hlt : (name typeFd i &&& numMask).toNat < 10 := by
    rw [name_index isTag_fd]
    exact i.isLt
  have hslot : (⟨_, hlt⟩ : Fin 10) = i := Fin.ext (name_index isTag_fd i)
  unfold Process.close
  rw [if_pos (name_type isTag_fd i)]
  unfold Table.close
  rw [dif_pos hlt, hslot, if_neg (by rw [hi]; exact nofun)]
  rfl

/-- `close`, on a descriptor of a file and on any other. -/
theorem wp_close : wp (close c p)
    (fun r k' => k'.files = k.files ∧
      (((k.procs p).fdt.get typeFd (c.args 0) = none ∧ ∀ q, (k'.procs q).files = (k.procs q).files) ∨
        ∃ i o, c.args 0 = name typeFd i ∧ (k.procs p).fdt i = some o ∧ r = 0#32 ∧
          k'.procs = Function.update k.procs p ((k.procs p).putSlot .fd i none)))
    (fun _ _ => True) k := by
  simp only [close, wp_bind, wp_arg, wp_process]
  split
  · trivial
  cases hget : (k.procs p).fdt.get typeFd (c.args 0) with
  | some o =>
    obtain ⟨i, hdes, hi, hclose⟩ := Process.close_file hget
    rw [hclose]
    exact ⟨rfl, .inr ⟨i, o, hdes, hi, rfl, rfl⟩⟩
  | none =>
    cases hc : (k.procs p).close (c.args 0) with
    | none => exact ⟨rfl, .inl ⟨rfl, fun _ => rfl⟩⟩
    | some proc =>
      obtain ⟨κ, i, o, hdes, ho, rfl⟩ := Process.close_eq_some hc
      have hκ : κ ≠ .fd := by
        rintro rfl
        have hsome : (k.procs p).fdt.get typeFd (c.args 0) = some o :=
          (Table.get_eq_some isTag_fd).mpr ⟨i, hdes, ho⟩
        rw [hget] at hsome
        cases hsome
      refine ⟨rfl, .inl ⟨rfl, fun q => ?_⟩⟩
      show (Function.update k.procs p ((k.procs p).putSlot κ i none) q).files = _
      by_cases hq : q = p
      · subst hq
        rw [Function.update_self, files_putSlot _ hκ]
      · rw [Function.update_of_ne hq]

theorem close_step (hn : c.num = 6#32) (hp : (k.procs p).life = .running)
    (hr : sysHandler g c p k = .ok r k') :
    Cursors.Step g size p c k.cursors (some r) k'.cursors := by
  have htable : k.cursors.table p = some (k.procs p).fdt := files_running hp
  have hw : wp (sysHandler g c p) (fun r k' => k'.files = k.files ∧
      (((k.procs p).fdt.get typeFd (c.args 0) = none ∧ ∀ q, (k'.procs q).files = (k.procs q).files) ∨
        ∃ i o, c.args 0 = name typeFd i ∧ (k.procs p).fdt i = some o ∧ r = 0#32 ∧
          k'.procs = Function.update k.procs p ((k.procs p).putSlot .fd i none)))
      (fun _ _ => True) k := by
    rw [wp_sysHandler (by rw [hn]; decide), hn]
    exact wp_close (k := k.took (.pcb p))
  obtain ⟨hf, ⟨hget, hprocs⟩ | ⟨i, o, hdes, hi, rfl, hprocs⟩⟩ := wp_ok hw hr
  · rw [cursors_same hf hprocs]
    exact .closedOther hn htable hget
  · have hfiles : ((k.procs p).putSlot .fd i none).files = some ((k.procs p).fdt.put i none) :=
      files_running hp
    rw [cursors_update hf hprocs hfiles]
    exact .closed hn htable hdes hi

theorem fork_step (T : Tidy k.procs k.next) (hn : c.num = 2#32) (hp : (k.procs p).life = .running)
    (hr : sysHandler g c p k = .ok r k') :
    Cursors.Step g size p c k.cursors (some r) k'.cursors := by
  have htable : k.cursors.table p = some (k.procs p).fdt := files_running hp
  have hf := wp_ok (files_same (by rw [hn]; decide) (by rw [hn]; decide) (by rw [hn]; decide)) hr
  have hlt : p < k.next := T.lt_next (by rw [hp]; decide)
  have he := effect_of_ok hr
  generalize hprocs : k'.procs = procs' at he
  generalize hnext : k'.next = next' at he
  cases he with
  | same h =>
    obtain rfl := h .pd hn
    rw [cursors_same hf fun q => by rw [hprocs]]
    exact .notForked hn
  | @made κ i hc hκ _ =>
    cases κ with
    | fd => exact absurd (hn.symm.trans hc) (by decide)
    | pd => exact absurd rfl hκ
    | sd => exact absurd (hn.symm.trans hc) (by decide)
  | @dropped κ i o _ hnum _ =>
    rcases hnum with h | ⟨h, -⟩
    · exact absurd (hn.symm.trans h) (by decide)
    · exact absurd (hn.symm.trans h) (by decide)
  | @forked i procs' _ _ hchild =>
    have hunborn : k.cursors.table k.next = none :=
      files_not_running (by rw [T.unborn _ (Nat.le_refl _)]; decide)
    have hc : k'.cursors = k.cursors.setTable k.next (some (k.procs p).fdt) := by
      unfold Kernel.cursors Cursors.setTable
      rw [hf, hprocs]
      congr 1
      funext q
      by_cases hq : q = p
      · subst hq
        rw [Function.update_self, files_putSlot _ (by decide), hchild,
          Function.update_of_ne (Nat.ne_of_lt hlt), Function.update_of_ne (Nat.ne_of_lt hlt)]
      · rw [Function.update_of_ne hq, hchild]
        by_cases hqn : q = k.next
        · subst hqn
          rw [Function.update_self, Function.update_self]
          exact files_running rfl
        · rw [Function.update_of_ne hqn, Function.update_of_ne hqn]
    rw [hc]
    exact .forked hn htable hunborn

/-! ### The other calls -/

/-- No descriptor of a file comes or goes. -/
theorem Effect.files_same {procs procs' : Nat → Process} {next next' : Nat}
    (e : Effect c p procs next r procs' next') (h2 : c.num ≠ 2#32) (h6 : c.num ≠ 6#32)
    (h10 : c.num ≠ 10#32) (q : Nat) : (procs' q).files = (procs q).files := by
  have slot : ∀ {κ : Kind} {i : Fin 10} {v : Option Nat}, κ ≠ .fd →
      (Function.update procs p ((procs p).putSlot κ i v) q).files = (procs q).files := by
    intro κ i v hκ
    by_cases hq : q = p
    · subst hq
      rw [Function.update_self, files_putSlot _ hκ]
    · rw [Function.update_of_ne hq]
  cases e with
  | same _ => rfl
  | @made κ i hc hκ _ =>
    refine slot ?_
    rintro rfl
    exact h10 hc
  | forked hc _ _ => exact absurd hc h2
  | @dropped κ i o _ hnum _ =>
    refine slot ?_
    rintro rfl
    exact hnum.elim h6 fun h => absurd h.2 (by decide)

theorem execl_step (hn : c.num = 9#32) (hr : sysHandler g c p k = .ok r k') :
    Cursors.Step g size p c k.cursors (some r) k'.cursors := by
  have hf := wp_ok (files_same (by rw [hn]; decide) (by rw [hn]; decide) (by rw [hn]; decide)) hr
  have hw : wp (sysHandler g c p) (fun r _ => r = failed) (fun _ _ => True) k := by
    rw [wp_sysHandler (by rw [hn]; decide), hn]
    exact wp_mono (execl_execs (k := k.took (.pcb p))) (fun _ _ h => h.1) fun _ _ _ => trivial
  have he := effect_of_ok hr
  obtain rfl := wp_ok hw hr
  rw [cursors_same hf (he.files_same (by rw [hn]; decide) (by rw [hn]; decide)
    (by rw [hn]; decide))]
  exact .notExeced hn

theorem other_step (hn : ∀ n ∈ [2#32, 6#32, 9#32, 10#32, 11#32, 12#32, 13#32], c.num ≠ n)
    (hr : sysHandler g c p k = .ok r k') :
    Cursors.Step g size p c k.cursors (some r) k'.cursors := by
  have hf := wp_ok (files_same (hn _ (by decide)) (hn _ (by decide)) (hn _ (by decide))) hr
  rw [cursors_same hf ((effect_of_ok hr).files_same (hn _ (by decide)) (hn _ (by decide))
    (hn _ (by decide)))]
  exact .other hn

/-- A call that returns. -/
theorem returned_step (T : Tidy k.procs k.next) (hp : (k.procs p).life = .running)
    (hsize : ∀ n, (c.size n).toNat = size n) (hr : sysHandler g c p k = .ok r k') :
    Cursors.Step g size p c k.cursors (some r) k'.cursors := by
  by_cases hfile : c.num = 11#32 ∨ c.num = 12#32 ∨ c.num = 13#32
  · by_cases hno : NoFile c p k
    · obtain ⟨rfl, rfl⟩ := none_step hfile hno hr
      refine .noFile hfile fun o n i h => ?_
      obtain ⟨offset, F, -⟩ := (names_iff hp).mp h
      exact hno o n offset F
    · simp only [NoFile, Classical.not_forall, not_not] at hno
      obtain ⟨o, node, offset, F⟩ := hno
      rcases hfile with hn | hn | hn
      · exact len_step hn hp hsize F hr
      · exact read_step hn hp hsize F hr
      · exact seek_step hn hp F hr
  by_cases hn : c.num = 10#32
  · exact open_step T hn hp hr
  by_cases h6 : c.num = 6#32
  · exact close_step h6 hp hr
  by_cases h2 : c.num = 2#32
  · exact fork_step T h2 hp hr
  by_cases h9 : c.num = 9#32
  · exact execl_step h9 hr
  refine other_step (fun n hmem heq => ?_) hr
  simp only [List.mem_cons, List.not_mem_nil, or_false] at hmem
  rcases hmem with rfl | rfl | rfl | rfl | rfl | rfl | rfl
  · exact h2 heq
  · exact h6 heq
  · exact h9 heq
  · exact hn heq
  · exact hfile (.inl heq)
  · exact hfile (.inr (.inl heq))
  · exact hfile (.inr (.inr heq))

/-! ### Calls that do not return -/

theorem read_left :
    wp (read g c p) (fun _ _ => True) (fun _ k' => k'.files = k.files) k := by
  simp only [read, wp_bind, wp_arg, wp_ite, wp_pure, wp_process, wp_holding]
  split
  · rfl
  split
  · rfl
  split
  · trivial
  split
  · rfl
  cases (k.procs p).fdt.get typeFd (c.args 0) with
  | none => trivial
  | some o =>
    simp only [fdRead, wp_bind, wp_file, took_files]
    cases k.files o with
    | stdIn | stdOut | stdErr => trivial
    | file node offset =>
      simp only [wp_ite, wp_pure, wp_bind, wp_storeAll, wp_setFile]
      split
      · trivial
      split
      · rfl
      · trivial

theorem seek_left :
    wp (seek c p) (fun _ _ => True) (fun _ k' => k'.files = k.files) k := by
  simp only [seek, wp_bind, wp_arg, wp_process, wp_holding]
  split
  · rfl
  split
  · rfl
  cases (k.procs p).fdt.get typeFd (c.args 0) with
  | none => trivial
  | some o =>
    simp only [fdSeek, wp_bind, wp_file]
    cases (k.took (.fd (some o))).files o <;> trivial

/-- A call that leaves the kernel stack moves no cursor. -/
theorem left_files :
    wp (sysHandler g c p) (fun _ _ => True) (fun _ k' => k'.files = k.files) k := by
  by_cases h10 : c.num = 10#32
  · rw [wp_sysHandler (by rw [h10]; decide), h10]
    exact wp_mono (wp_open (k := k.took (.pcb p))) (fun _ _ _ => trivial) fun _ _ h => h.2.2
  by_cases h12 : c.num = 12#32
  · rw [wp_sysHandler (by rw [h12]; decide), h12]
    exact read_left (k := k.took (.pcb p))
  by_cases h13 : c.num = 13#32
  · rw [wp_sysHandler (by rw [h13]; decide), h13]
    exact seek_left (k := k.took (.pcb p))
  exact wp_mono (files_same h10 h12 h13) (fun _ _ _ => trivial) fun _ _ h => h

/-- Why a call does not return. -/
theorem left_why : wp (sysHandler g c p) (fun _ _ => True)
    (fun l _ => l = .exit ∨ l = .shutdown ∨ l = .killed →
      c.num = 0#32 ∨ c.num = 7#32 ∨ ∃ a, c.refused a = true) k := by
  by_cases h0 : c.num = 0#32
  · exact wp_mono sysHandler_ends (fun _ _ _ => trivial) fun _ _ _ _ => .inl h0
  by_cases h7 : c.num = 7#32
  · exact wp_mono sysHandler_ends (fun _ _ _ => trivial) fun _ _ _ _ => .inr (.inl h7)
  by_cases hlt : c.num.toNat < 14
  · have hnum : ∀ {n : Nat}, c.num ≠ BitVec.ofNat 32 n → c.num.toNat ≠ n := fun hne h =>
      hne (by rw [← h, BitVec.ofNat_toNat, BitVec.setWidth_eq])
    have hleaves : wp (sysHandler g c p) (fun _ _ => True)
        (fun l _ => l ≠ .exit ∧ l ≠ .shutdown) k := by
      rw [wp_sysHandler hlt]
      exact handler_leaves (k := k.took (.pcb p)) (hnum h0) (hnum h7)
    refine wp_mono (wp_and hleaves sysHandler_ends) (fun _ _ _ => trivial) ?_
    rintro l k' ⟨hno, hends⟩ (rfl | rfl | rfl)
    · exact absurd rfl hno.1
    · exact absurd rfl hno.2
    · obtain ⟨⟨a, -, ha⟩, -⟩ := hends
      exact .inr (.inr ⟨a, ha⟩)
  · unfold sysHandler
    rw [if_pos (by rw [BitVec.le_def]; exact Nat.not_lt.mp hlt)]
    trivial

theorem left_step (hp : (k.procs p).life = .running) {l : Leave} (hl : l ≠ .waits)
    (hr : sysHandler g c p k = .error l k') :
    Cursors.Step g size p c k.cursors none k'.cursors := by
  have hf : k'.files = k.files := by
    have h := wp_error left_files hr
    exact h
  have hwhy := wp_error left_why hr
  have hgone := gone_of_error hr
  generalize hprocs : k'.procs = procs' at hgone
  generalize hnext : k'.next = next' at hgone
  cases hgone with
  | @ended _ proc hend hstop _ =>
    have hnone : proc.files = none := files_not_running (by rw [hstop]; decide)
    rw [cursors_update hf hprocs hnone]
    refine .ended (hwhy ?_)
    rcases hend with h | h | h
    · exact .inl h
    · exact .inr (.inr h)
    · exact .inr (.inl h)
  | user hn =>
    rw [cursors_same hf fun q => ?_]
    · exact .execed hn
    · rw [hprocs]
      by_cases hq : q = p
      · subst hq
        rw [Function.update_self]
        rfl
      · rw [Function.update_of_ne hq]
  | waits => exact absurd rfl hl

/-! ## Runs -/

/-- The end of a TCB takes no descriptor from a process that is there. -/
theorem reap_cursors (hp : (k.procs p).life = .stopped) :
    (k.setProc p { k.procs p with life := .deleted }).cursors = k.cursors := by
  refine cursors_same rfl fun q => ?_
  by_cases hq : q = p
  · subst hq
    rw [setProc_self, @files_not_running (k.procs q) (by rw [hp]; decide)]
    rfl
  · rw [setProc_ne _ hq]

/-- One call of the kernel is one of the cursors. -/
theorem call_cursors (T : Tidy k.procs k.next) (hsize : ∀ n, (c.size n).toNat = size n)
    (h : step g k (.call p c) = some k') :
    Cursors.Step g size p c k.cursors (returned g k p c) k'.cursors := by
  obtain ⟨_, _, he, hp, hcall⟩ | ⟨_, he, -⟩ := step_cases h
  · cases he
    unfold returned
    rcases hcall with ⟨r, hr, -⟩ | ⟨l, hl, hr, -⟩
    · rw [hr]
      exact returned_step T hp hsize hr
    · rw [hr]
      exact left_step hp hl hr
  · cases he

theorem reap_step (h : step g k (.reap p) = some k') : k'.cursors = k.cursors := by
  dsimp only [step] at h
  split at h
  · rename_i hp
    obtain rfl := Option.some.inj h
    exact reap_cursors hp
  · cases h

/-- A run of the kernel is a run of the cursors. -/
theorem run_cursors (T : Tidy k.procs k.next) {es : List Event} (hes : ∀ e ∈ es, e.Sized size)
    (hr : runs (step g) k es = some k') :
    Cursors.Run g size k.cursors (calls g k es) k'.cursors := by
  induction es generalizing k with
  | nil =>
    obtain rfl := Option.some.inj hr
    exact .nil
  | cons e es ih =>
    obtain ⟨u, hu, hr⟩ := runs_cons.mp hr
    have hrest := ih (T.step hu) (fun e he => hes e (List.mem_cons_of_mem _ he)) hr
    cases e with
    | call p c =>
      simp only [calls, hu]
      exact .cons (call_cursors T (hes _ List.mem_cons_self) hu) hrest
    | reap p =>
      simp only [calls, hu]
      rw [← reap_step hu]
      exact hrest

/-! ## The bytes -/

/-- What `read` puts into the buffer of the user: nothing if it fails, and else the bytes of the
file from the cursor on, as many as it says. -/
def Delivers (g : Config) (c : Call) (p n : Nat) (offset : Word) (k k' : Kernel) (r : Word) : Prop :=
  ∀ (node : Nat → Block.Device) (w : Buffers.World) (fuel : Nat), (∀ m, (node m).size = c.size m) →
    w.files = k.files → (c.args 2).toNat < fuel →
    ∃ w', Buffers.read g node fuel (k.procs p).fdt (c.args 0) (c.args 1) (c.args 2) w = .ok r w' ∧
      w'.files = k'.files ∧
      w'.bus.mem = if r = failed then w.bus.mem
        else overlay w.bus.mem (c.args 1) r.toNat fun j => (node n).content (offset.toNat + j)

/-- `read_all` on the bus of the world, byte for byte. -/
theorem onBus_readAll {d : Block.Device} {n b : Word} {fuel : Nat} {w : Buffers.World}
    (hoff : ¬d.size < offset) (hfuel : n.toNat < fuel) :
    ∃ bus, Buffers.onBus (d.readAll fuel offset n b) w =
        .ok (BitVec.ofNat 64 (d.available offset n)) { w with bus := bus } ∧
      bus.mem = overlay w.bus.mem b (d.available offset n) fun j => d.content (offset.toNat + j) := by
  obtain ⟨blocks, stores, hrun, -⟩ := Block.readLoop_spec fuel offset n b 0 w.bus hoff hfuel
  have hzero : 0 + BitVec.ofNat 64 (d.available offset n) = BitVec.ofNat 64 (d.available offset n) :=
    BitVec.zero_add _
  rw [hzero] at hrun
  have hrun' : d.readAll fuel offset n b w.bus = _ := hrun
  refine ⟨w.bus.got d offset b (d.available offset n) blocks stores, ?_, rfl⟩
  unfold Buffers.onBus
  rw [hrun']

theorem read_delivers (hn : c.num = 12#32) (F : c.OnFile p k o node offset)
    (hr : sysHandler g c p k = .ok r k') : Delivers g c p node offset k k' r := by
  intro dev w fuel hsize hfiles hfuel
  have hfile : w.files o = .file node offset := by
    rw [hfiles, F.file]
  unfold Buffers.read
  rw [F.get]
  rcases read_returns hn F hr with ⟨rfl, rfl, hno | hlt⟩ | ⟨hok, hle, rfl, rfl⟩
  · rw [hno]
    exact ⟨w, rfl, hfiles, (if_pos rfl).symm⟩
  · refine ⟨w, ?_, hfiles, (if_pos rfl).symm⟩
    split
    · rfl
    · have hw : wp (Buffers.fdRead dev fuel (some o) (c.args 1) (c.args 2))
          (fun r w' => r = failed ∧ w' = w) (fun _ _ => False) w := by
        unfold Buffers.fdRead
        simp only [Buffers.file, bind_assoc, pure_bind, wp_bind, wp_get, hfile]
        rw [wp_ite, if_pos (by rw [hsize]; exact hlt)]
        exact ⟨rfl, rfl⟩
      obtain ⟨_, _, hrun, rfl, rfl⟩ := wp_returns hw
      exact hrun
  · have hcount : (dev node).available offset (c.args 2) = c.count node offset := by
      unfold Block.Device.available Call.count delivered
      rw [hsize]
    obtain ⟨bus, hbus, hmem⟩ := onBus_readAll (d := dev node) (b := c.args 1) (w := w)
      (by rw [hsize]; exact hle) hfuel
    rw [hcount] at hbus hmem
    have hneg : (BitVec.ofNat 32 (c.count node offset)).msb = false := count_not_negative hok
    have hne : BitVec.ofNat 32 (c.count node offset) ≠ failed := by
      intro h
      rw [h] at hneg
      exact absurd hneg (by decide)
    have hlt : c.count node offset < 2 ^ 32 :=
      Nat.lt_of_le_of_lt (delivered_le ..) (c.args 2).isLt
    have hw : wp (Buffers.fdRead dev fuel (some o) (c.args 1) (c.args 2))
        (fun r w' => r = BitVec.ofNat 32 (c.count node offset) ∧
          w'.files = (k.advanced c o node offset).files ∧ w'.bus = bus) (fun _ _ => False) w := by
      unfold Buffers.fdRead
      simp only [Buffers.file, bind_assoc, pure_bind, wp_bind, wp_get, hfile]
      rw [wp_ite, if_neg (by rw [hsize]; exact hle), wp_bind]
      unfold wp
      rw [hbus]
      refine ⟨Block.narrow _, ?_, rfl⟩
      show Function.update w.files o _ = Function.update k.files o _
      rw [hfiles, Block.advance]
    obtain ⟨r, w', hrun, rfl, hf, rfl⟩ := wp_returns hw
    rw [hok]
    refine ⟨w', hrun, hf, ?_⟩
    rw [if_neg hne, hmem, BitVec.toNat_ofNat, Nat.mod_eq_of_lt hlt]

/-! ## The result -/

/-- Whatever the processes call, their open files are shared cursors, and a `read` delivers the
bytes at its cursor. -/
theorem open_files_are_cursors (g : Config) (root : Nat) (size : Nat → Nat) (es : List Event)
    (hes : ∀ e ∈ es, e.Sized size) (hr : runs (step g) (Kernel.init root) es = some k) :
    Cursors.Run g size (Kernel.init root).cursors (calls g (Kernel.init root) es) k.cursors ∧
    ∀ p c r k' o n offset, c.num = 12#32 → c.OnFile p k o n offset →
      sysHandler g c p k = .ok r k' → Delivers g c p n offset k k' r :=
  ⟨run_cursors (.init root) hes hr, fun _ _ _ _ _ _ _ hn F hr => read_delivers hn F hr⟩

/-- A file is opened, and a child reads from where its parent has left the cursor. -/
def sharedRun : List Event :=
  [.call 0 (plainCall 10 fun _ => 0), .call 0 (plainCall 2 fun _ => 0), .call 0 (seekCall 40),
    .call 4 (plainCall 12 fun i => if i = 0 then name typeFd 3 else if i = 1 then 0x80000000 else 8)]

theorem open_files_are_cursors_child : ∃ k,
    runs (step ⟨0xfee00000, 0xfec00000⟩) (Kernel.init 2) sharedRun = some k ∧
    Cursors.Run ⟨0xfee00000, 0xfec00000⟩ (fun _ => 100) (Kernel.init 2).cursors
      (calls ⟨0xfee00000, 0xfec00000⟩ (Kernel.init 2) sharedRun) k.cursors := by
  have heval : (runs (step ⟨0xfee00000, 0xfec00000⟩) (Kernel.init 2) sharedRun).any
      (fun k => decide (k.files 3 = .file 5 48)) = true := by
    decide +kernel
  obtain ⟨k, hk, -⟩ := (Option.any_eq_true _ _).mp heval
  refine ⟨k, hk, (open_files_are_cursors _ 2 _ sharedRun (fun e he => ?_) hk).1⟩
  simp only [sharedRun, List.mem_cons, List.not_mem_nil, or_false] at he
  rcases he with rfl | rfl | rfl | rfl <;> exact fun _ => rfl

end OsKernel.Sys
