import OsKernel.Sys.Tables

/-!
# Handles on the kernel stack

A call that returns gives back every handle it took. The calls that leave their stack give
back by hand what they know of: `exit` and `shutdown` the handle of `sysHandler`, a successful
`execl` that one and the program file, but not the file system. A call that the page fault
handler ends gives back nothing.

`Kernel.held` counts, for each object, the handles that live on kernel stacks. A `Shared` in a
table or in another object is not counted: those are given back with the table, and
`Shared/Handles.lean` is about their counts. What can go wrong on a stack is that it is left
and never comes back to its destructors, and this is what is followed here.

`Ends` says what is held in each of the ways out, as a function of the handles before the
call. It needs to know at which addresses the call can be ended and whether a program starts,
and takes both as parameters; so it composes along the text of a handler, like a rule of `wp`
(`Stays.touchAll`, `Stays.only` and the others), and the addresses are collected on the way.
For the whole call they are `Call.accesses`. That is why the condition of `handles_balance`
can be stated on the state before the call: the page fault handler refuses one of these
addresses, or `execl` finds a program.

Over a run only the control blocks are followed, since with them a leak has a consequence that
another process can see: a process that was deleted, and a control block that stays.
-/

set_option autoImplicit false

namespace OsKernel.Sys

open Lib Prog

variable {g : Config} {c : Call} {p : Nat} {k : Kernel}

/-! ## The ways out

A handler can return, end its process at a refused address, go to sleep, or leave for the new
program. What is counted are the handles that are open at the end of each, so `Ends` has a clause
for each way. Most handlers leave by returning or by a refused address only; for these `Stays` is
enough, and composes along the code. -/

/-- What `write` reads from its buffer. -/
def Call.written (c : Call) (p : Nat) (k : Kernel) : List Word :=
  match k.lookup p .fd (c.args 0) with
  | none => []
  | some o =>
    match k.files o with
    | .stdOut | .stdErr => span (c.args 1) (if (c.args 2).msb then 0 else (c.args 2).toNat)
    | .stdIn | .file _ _ => []

/-- What `read` stores to. -/
def Call.filled (c : Call) (p : Nat) (k : Kernel) : List Word :=
  match k.lookup p .fd (c.args 0) with
  | none => []
  | some o =>
    match k.files o with
    | .file node offset =>
      if c.size node < offset then []
      else span (c.args 1) (delivered (c.size node) offset (c.args 2))
    | .stdIn | .stdOut | .stdErr => []

/-- What `wait` stores to. -/
def Call.reported (c : Call) (p : Nat) (k : Kernel) : List Word :=
  match k.lookup p .pd (c.args 0) with
  | none => []
  | some o => if k.status (k.child o) = none then [] else span (c.args 1) 4

/-- What `exec` reads and stores to, with the program file `file`. -/
def Call.loaded (g : Config) (c : Call) (file : Nat) : List Word :=
  argvBytes c ++
    match c.image file with
    | none => []
    | some image =>
      let esp := argBlock g (BitVec.ofNat 32 (argSize c))
      c.argv.flatMap (strBytes c) ++
        (image.segments.flatMap fun s => s.bytes s.filesize.toNat) ++
        span esp (argSize c) ++ span (esp - 8#32) 8

/-- The user addresses that the call accesses if it is not ended at one of them. -/
def Call.accesses (g : Config) (c : Call) (p : Nat) (k : Kernel) : Nat → List Word
  | 0 | 4 | 5 | 6 | 11 => argBytes c 0
  | 1 =>
    argBytes c 1 ++ (argBytes c 2 ++
      if checkRange g (c.args 1) (c.args 2) then argBytes c 0 ++ c.written p k else [])
  | 3 => if (k.procs p).sdt.free.isSome then argBytes c 0 else []
  | 8 => argBytes c 0 ++ (argBytes c 1 ++ c.reported p k)
  | 9 =>
    argBytes c 0 ++ strBytes c (c.args 0) ++
      match c.opened (k.procs p).cd with
      | none => []
      | some file => c.loaded g file
  | 10 => argBytes c 0 ++ strBytes c (c.args 0)
  | 12 =>
    argBytes c 1 ++ (argBytes c 2 ++
      if checkRange g (c.args 1) (c.args 2) then argBytes c 0 ++ c.filled p k else [])
  | 13 => argBytes c 0 ++ argBytes c 1
  | _ => []

/-- `execl` finds a file that `read_header` accepts. -/
def Call.starts (c : Call) (p : Nat) (k : Kernel) (n : Nat) : Prop :=
  n = 9 ∧ ∃ file, c.opened (k.procs p).cd = some file ∧ (c.image file).isSome

/-- What is held in each way out, if `as` are the addresses accessed, and a program starts exactly
if `starts`. -/
def Ends (c : Call) (p : Nat) (as : List Word) (starts : Prop) (k : Kernel) (x : Kern Word) : Prop :=
  wp x (fun _ k' => ¬c.refusesOne as ∧ ¬starts ∧ k'.held = k.held)
    (fun l k' =>
      match l with
      | .waits => ¬c.refusesOne as ∧ ¬starts
      | .killed => c.refusesOne as ∧ ∀ o, k.held o ≤ k'.held o
      | .exit | .shutdown => ¬c.refusesOne as ∧ ¬starts ∧ k'.held = (k.gave (.pcb p)).held
      | .user _ _ => ¬c.refusesOne as ∧ starts ∧ k'.held = ((k.took .fs).gave (.pcb p)).held) k

/-- The same of a piece that does not leave the stack of its own accord. -/
def Stays {α : Type} (c : Call) (as : List Word) (k : Kernel) (x : Kern α) : Prop :=
  wp x (fun _ k' => ¬c.refusesOne as ∧ k'.held = k.held)
    (fun l k' =>
      (l = .waits ∧ ¬c.refusesOne as) ∨
        (l = .killed ∧ c.refusesOne as ∧ ∀ o, k.held o ≤ k'.held o)) k

theorem le_took (o o' : Obj) : k.held o ≤ (k.took o').held o := by
  rw [held_took]
  split
  · exact Nat.le_succ _
  · exact Nat.le_refl _

/-- A handle is given back, whatever else has changed. -/
theorem held_back {k' : Kernel} {o : Obj} (h : k'.held = (k.took o).held) :
    (k'.gave o).held = k.held := by
  have hgave : (k'.gave o).held = ((k.took o).gave o).held := by
    show Function.update k'.held o _ = Function.update (k.took o).held o _
    rw [h]
  rw [hgave, took_gave]

/-- The first of two handles is given back. -/
theorem held_crossed {k' : Kernel} {o o' : Obj} (h : k'.held = ((k.took o).took o').held) :
    (k'.gave o).held = (k.took o').held := by
  have hgave : (k'.gave o).held = (((k.took o).took o').gave o).held := by
    show Function.update k'.held o _ = Function.update ((k.took o).took o').held o _
    rw [h]
  rw [hgave, took_took_gave]

theorem took_held {k' : Kernel} {o : Obj} (h : k'.held = k.held) :
    (k'.took o).held = (k.took o).held := by
  show Function.update k'.held o _ = Function.update k.held o _
  rw [h]

theorem gave_held {k' : Kernel} {o : Obj} (h : k'.held = k.held) :
    (k'.gave o).held = (k.gave o).held := by
  show Function.update k'.held o _ = Function.update k.held o _
  rw [h]

theorem gave_comm (o o' : Obj) : (k.gave o).gave o' = (k.gave o').gave o := by
  refine Kernel.ext_held rfl fun o₂ => ?_
  simp only [held_gave]
  split <;> split <;> rfl

theorem not_refused_nil : ¬c.refusesOne [] := by
  rintro ⟨a, ha, -⟩
  cases ha

namespace Stays

variable {α β : Type} {as bs : List Word} {x : Kern α} {o : Obj}

protected theorem pure (a : α) : Stays c [] k (pure a : Kern α) := ⟨not_refused_nil, rfl⟩

protected theorem process {f : Process → Kern α} (h : Stays c as k (f (k.procs p))) :
    Stays c as k (process p >>= f) := h

protected theorem file {o : Nat} {f : File → Kern α} (h : Stays c as k (f (k.files o))) :
    Stays c as k (file o >>= f) := h

/-- First `bs` are read, then the rest is done. -/
protected theorem touchAll {f : Unit → Kern α} (h : Stays c as k (f ())) :
    Stays c (bs ++ as) k (touchAll c p bs >>= f) := by
  simp only [Stays, wp_bind, wp_touchAll, refusesOne_append]
  split
  · rename_i hbs
    exact .inr ⟨trivial, .inl hbs, fun _ => Nat.le_refl _⟩
  · rename_i hbs
    refine wp_mono h (fun r k' hk => ?_) fun l k' hk => ?_
    · exact ⟨not_or.mpr ⟨hbs, hk.1⟩, hk.2⟩
    · rcases hk with ⟨hl, has⟩ | ⟨hl, has, hk⟩
      · exact .inl ⟨hl, not_or.mpr ⟨hbs, has⟩⟩
      · exact .inr ⟨hl, .inr has, hk⟩

protected theorem arg {i : Nat} {f : Word → Kern α} (h : Stays c as k (f (c.args i))) :
    Stays c (argBytes c i ++ as) k (arg c p i >>= f) := by
  unfold Sys.arg
  rw [bind_assoc]
  exact .touchAll h

/-- First `bs` are stored to, then the rest is done. -/
protected theorem storeAll {f : Unit → Kern α} (h : Stays c as (k.stored bs) (f ())) :
    Stays c (bs ++ as) k (storeAll c p bs >>= f) := by
  simp only [Stays, wp_bind, wp_storeAll, refusesOne_append]
  split
  · rename_i hbs
    exact .inr ⟨trivial, .inl hbs, fun _ => Nat.le_refl _⟩
  · rename_i hbs
    refine wp_mono h (fun r k' hk => ?_) fun l k' hk => ?_
    · exact ⟨not_or.mpr ⟨hbs, hk.1⟩, hk.2⟩
    · rcases hk with ⟨hl, has⟩ | ⟨hl, has, hk⟩
      · exact .inl ⟨hl, not_or.mpr ⟨hbs, has⟩⟩
      · exact .inr ⟨hl, .inr has, hk⟩

/-- Nothing is done but accesses. -/
theorem only {x : Kern α} (h : Stays c (as ++ []) k x) : Stays c as k x := by
  rwa [List.append_nil] at h

/-- What is done under a handle that is held already. -/
theorem back (h : Stays c as (k.took o) x) :
    wp (do let r ← x; release o; pure r) (fun _ k' => ¬c.refusesOne as ∧ k'.held = k.held)
      (fun l k' => (l = .waits ∧ ¬c.refusesOne as) ∨
        (l = .killed ∧ c.refusesOne as ∧ ∀ o, k.held o ≤ k'.held o)) (k.took o) := by
  simp only [wp_bind, wp_release, wp_pure]
  refine wp_mono h (fun r k' hk => ?_) fun l k' hk => ?_
  · exact ⟨hk.1, held_back hk.2⟩
  · rcases hk with hk | ⟨hl, has, hk⟩
    · exact .inl hk
    · exact .inr ⟨hl, has, fun o' => Nat.le_trans (le_took o' o) (hk o')⟩

protected theorem holding (h : Stays c as (k.took o) x) : Stays c as k (holding o x) := back h

theorem ends {x : Kern Word} (h : Stays c as k x) : Ends c p as False k x := by
  refine wp_mono h (fun r k' hk => ⟨hk.1, not_false, hk.2⟩) fun l k' hk => ?_
  rcases hk with ⟨rfl, has⟩ | ⟨rfl, hk⟩
  · exact ⟨has, not_false⟩
  · exact hk

end Stays

/-! ## The handlers

One lemma for each handler, with the addresses that it accesses. What is open when an address is
refused are the handles that were taken before it, and for that the order of the accesses matters.
-/

theorem exit_ends : Ends c p (argBytes c 0) False k (exit c p) := by
  simp only [Ends, exit, wp_bind, wp_arg, wp_setStatus, wp_release, wp_stop]
  split
  · rename_i h0
    exact ⟨h0, fun _ => Nat.le_refl _⟩
  · rename_i h0
    exact ⟨h0, not_false, rfl⟩

theorem shutdown_ends : Ends c p [] False k (shutdown p) := by
  simp only [Ends, shutdown, wp_bind, wp_release, wp_stop]
  exact ⟨not_refused_nil, not_false, rfl⟩

theorem fdWrite_stays {o : Obj} :
    Stays c (c.written p k) (k.took o)
      (fdWrite c p (k.lookup p .fd (c.args 0)) (c.args 1) (c.args 2)) := by
  unfold Call.written
  cases k.lookup p .fd (c.args 0) with
  | none => exact .pure _
  | some o =>
    refine .file ?_
    simp only [took_files]
    cases k.files o with
    | stdOut => exact .only (.touchAll (.pure _))
    | stdErr => exact .only (.touchAll (.pure _))
    | stdIn => exact .pure _
    | file node offset => exact .pure _

theorem fdRead_stays {o : Obj} :
    Stays c (c.filled p k) (k.took o)
      (fdRead c p (k.lookup p .fd (c.args 0)) (c.args 1) (c.args 2)) := by
  unfold Call.filled
  cases k.lookup p .fd (c.args 0) with
  | none => exact .pure _
  | some o =>
    refine .file ?_
    simp only [took_files]
    cases k.files o with
    | stdIn => exact .pure _
    | stdOut => exact .pure _
    | stdErr => exact .pure _
    | file node offset =>
      simp only
      split
      · exact .pure _
      · exact .only (.storeAll ⟨not_refused_nil, rfl⟩)

theorem write_stays :
    Stays c (argBytes c 1 ++ (argBytes c 2 ++
      if checkRange g (c.args 1) (c.args 2) then argBytes c 0 ++ c.written p k else [])) k
      (write g c p) := by
  refine .arg (.arg ?_)
  cases checkRange g (c.args 1) (c.args 2) with
  | false => exact .pure _
  | true => exact .arg (.process (.holding fdWrite_stays))

theorem fork_stays : Stays c [] k (fork p) := by
  refine .holding ?_
  simp only [Stays, setPd, wp_bind, wp_process, took_procs]
  cases (k.procs p).pdt.free with
  | none => exact ⟨not_refused_nil, rfl⟩
  | some i =>
    simp only [forkChild, wp_bind, wp_fresh, wp_take, wp_pure, wp_process, wp_setProcess,
      wp_release, wp_setChild]
    exact ⟨not_refused_nil, held_back (held_crossed (k := k.took (.pcb p)) rfl)⟩

theorem sem_stays :
    Stays c (if (k.procs p).sdt.free.isSome then argBytes c 0 else []) k (sem c p) := by
  refine .process ?_
  cases (k.procs p).sdt.free with
  | none => exact .pure _
  | some i =>
    show Stays c (argBytes c 0) k _
    simp only [bind_assoc]
    exact .only (.arg ⟨not_refused_nil, held_back rfl⟩)

theorem up_stays : Stays c (argBytes c 0) k (up c p) := by
  exact .only <| .arg (.process (.holding (.pure _)))

theorem close_stays : Stays c (argBytes c 0) k (close c p) := by
  refine .only <| .arg (.process ?_)
  cases (k.procs p).close (c.args 0) <;> exact ⟨not_refused_nil, rfl⟩

theorem len_stays : Stays c (argBytes c 0) k (len c p) := by
  refine .only <| .arg (.process (.holding ?_))
  cases (k.procs p).fdt.get typeFd (c.args 0) with
  | none => exact .pure _
  | some o =>
    simp only [Stays, fdLen, wp_bind, wp_file]
    split <;> exact ⟨not_refused_nil, rfl⟩

theorem seek_stays : Stays c (argBytes c 0 ++ argBytes c 1) k (seek c p) := by
  refine .arg (.only (.arg (.process (.holding ?_))))
  cases (k.procs p).fdt.get typeFd (c.args 0) with
  | none => exact .pure _
  | some o =>
    simp only [Stays, fdSeek, wp_bind, wp_file]
    split <;> exact ⟨not_refused_nil, rfl⟩

theorem read_stays :
    Stays c (argBytes c 1 ++ (argBytes c 2 ++
      if checkRange g (c.args 1) (c.args 2) then argBytes c 0 ++ c.filled p k else [])) k
      (read g c p) := by
  refine .arg (.arg ?_)
  cases checkRange g (c.args 1) (c.args 2) with
  | false => exact .pure _
  | true => exact .arg (.process (.holding fdRead_stays))

theorem wait_stays : Stays c (argBytes c 0 ++ (argBytes c 1 ++ c.reported p k)) k (wait c p) := by
  refine .arg (.arg ?_)
  unfold Call.reported
  simp only [Stays, wp_processWait]
  cases hslot : k.lookup p .pd (c.args 0) with
  | none => exact ⟨not_refused_nil, trivial⟩
  | some o =>
    simp only
    cases k.status (k.child o) with
    | none => exact .inl ⟨trivial, not_refused_nil⟩
    | some v =>
      simp only [reduceCtorEq, if_false]
      split
      · rename_i hspan
        exact .inr ⟨trivial, hspan, fun _ => Nat.le_refl _⟩
      · rename_i hspan
        obtain ⟨i, hdes, ho⟩ := (Table.get_eq_some isTag_pd).mp hslot
        exact ⟨i, hdes, ho, hspan, rfl⟩

/-- The search of `Ext2::open`, and what is done with the node. The caller has the handle on it. -/
theorem openFile_stays {f : Option Nat → Kern Word} {as : List Word} {dir : Nat} {path : Word}
    (hnone : c.opened dir = none → Stays c as k (f none))
    (hsome : ∀ n, c.opened dir = some n →
      ∃ x : Kern Word, f (some n) = (do let r ← x; release (.node n); pure r) ∧
        Stays c as (k.took (.node n)) x) :
    Stays c (strBytes c path ++ as) k (openFile c p dir path >>= f) := by
  simp only [Stays, wp_bind, wp_openFile, refusesOne_append]
  split
  · rename_i hpath
    exact .inr ⟨trivial, .inl hpath, fun o => Nat.le_trans (le_took o _) (le_took o _)⟩
  rename_i hpath
  have hrest : wp (f (c.opened dir)) (fun _ k' => ¬c.refusesOne as ∧ k'.held = k.held)
      (fun l k' => (l = .waits ∧ ¬c.refusesOne as) ∨
        (l = .killed ∧ c.refusesOne as ∧ ∀ o, k.held o ≤ k'.held o))
      (k.tookNode (c.opened dir)) := by
    cases hn : c.opened dir with
    | none => exact hnone hn
    | some n =>
      obtain ⟨x, hx, hstays⟩ := hsome n hn
      rw [hx]
      exact Stays.back hstays
  refine wp_mono hrest (fun r k' hk => ?_) fun l k' hk => ?_
  · exact ⟨not_or.mpr ⟨hpath, hk.1⟩, hk.2⟩
  · rcases hk with ⟨hl, has⟩ | ⟨hl, has, hk⟩
    · exact .inl ⟨hl, not_or.mpr ⟨hpath, has⟩⟩
    · exact .inr ⟨hl, .inr has, hk⟩

theorem open_stays : Stays c (argBytes c 0 ++ strBytes c (c.args 0)) k (open_ c p) := by
  refine .process (.holding (.arg (.only (openFile_stays (fun h => .pure _) fun n h => ?_))))
  refine ⟨_, rfl, .holding (.process ?_)⟩
  simp only [Stays]
  cases ((((k.took .fs).took (.node n)).took (.node n)).procs p).fdt.free with
  | none => exact ⟨not_refused_nil, rfl⟩
  | some i =>
    simp only [wp_bind, wp_fresh, wp_holding, wp_setFile, wp_take, wp_pure, wp_process,
      wp_setProcess, wp_release]
    exact ⟨not_refused_nil, held_back (took_held (held_back rfl))⟩

/-! ## `execl` -/

/-- How `exec` ends, with the program file `n`. -/
theorem wp_exec (n : Nat) :
    wp (exec g c p n)
      (fun _ k' => ¬c.refusesOne (c.loaded g n) ∧ c.image n = none ∧ k'.held = k.held)
      (fun l k' =>
        (l = .killed ∧ c.refusesOne (c.loaded g n) ∧ ∀ o, k.held o ≤ k'.held o) ∨
          ∃ entry esp, l = .user entry esp ∧ ¬c.refusesOne (c.loaded g n) ∧ (c.image n).isSome ∧
            k'.held = ((k.gave (.pcb p)).gave (.node n)).held) k := by
  simp only [exec, wp_bind, wp_touchAll, wp_holding, wp_pure, took_gave, Call.loaded,
    refusesOne_append]
  split
  · rename_i hargv
    exact .inl ⟨trivial, .inl hargv, fun _ => Nat.le_refl _⟩
  rename_i hargv
  cases himage : c.image n with
  | none => exact ⟨not_or.mpr ⟨hargv, not_refused_nil⟩, rfl, rfl⟩
  | some image =>
    simp only [wp_bind, wp_touchAll, wp_process, wp_setProcess, wp_holding, wp_storeAll, wp_release,
      wp_throw, refusesOne_append]
    split
    · rename_i hstr
      exact .inl ⟨trivial, .inr (.inl (.inl (.inl hstr))), fun _ => Nat.le_refl _⟩
    rename_i hstr
    split
    · rename_i hseg
      exact .inl ⟨trivial, .inr (.inl (.inl (.inr hseg))), fun o => le_took o (.node n)⟩
    rename_i hseg
    have hback : ∀ {k' : Kernel}, k'.held = (k.took (.node n)).held →
        (k'.gave (.node n)).held = k.held := held_back
    split
    · rename_i hblock
      exact .inl ⟨trivial, .inr (.inl (.inr hblock)), fun o =>
        Nat.le_of_eq (congrFun (hback rfl).symm o)⟩
    rename_i hblock
    split
    · rename_i htop
      exact .inl ⟨trivial, .inr (.inr htop), fun o => Nat.le_of_eq (congrFun (hback rfl).symm o)⟩
    · rename_i htop
      refine .inr ⟨_, _, rfl, ?_, rfl, ?_⟩
      · simp only [not_or]
        exact ⟨hargv, ⟨⟨hstr, hseg⟩, hblock⟩, htop⟩
      · exact gave_held (gave_held (hback rfl))

theorem execl_ends :
    Ends c p (argBytes c 0 ++ strBytes c (c.args 0) ++
      match c.opened (k.procs p).cd with
      | none => []
      | some file => c.loaded g file) (c.starts p k 9) k (execl g c p) := by
  simp only [Ends, execl, wp_bind, wp_process, wp_holding, wp_arg, wp_openFile, refusesOne_append]
  split
  · rename_i h0
    exact ⟨.inl (.inl h0), fun o => le_took o .fs⟩
  rename_i h0
  split
  · rename_i hpath
    exact ⟨.inl (.inr hpath), fun o => Nat.le_trans (le_took o .fs)
      (Nat.le_trans (le_took o (.node (k.procs p).cd)) (le_took o (.node (k.procs p).cd)))⟩
  rename_i hpath
  have hread := not_or.mpr ⟨h0, hpath⟩
  cases hopen : c.opened (k.procs p).cd with
  | none =>
    refine ⟨not_or.mpr ⟨hread, not_refused_nil⟩, ?_, held_back rfl⟩
    rintro ⟨-, n, hn, -⟩
    exact absurd (hopen.symm.trans hn) fun h => by cases h
  | some n =>
    simp only [wp_bind, wp_release, wp_pure]
    have hexec := wp_exec (g := g) (c := c) (p := p) (k := (k.took .fs).took (.node n)) n
    refine wp_mono hexec (fun r k' h => ?_) fun l k' h => ?_
    · obtain ⟨hno, himage, hk⟩ := h
      refine ⟨not_or.mpr ⟨hread, hno⟩, ?_, held_back (held_back hk)⟩
      rintro ⟨-, m, hm, hsome⟩
      cases hopen.symm.trans hm
      rw [himage] at hsome
      cases hsome
    · rcases h with ⟨rfl, hdies, hk⟩ | ⟨entry, esp, rfl, hno, hsome, hk⟩
      · exact ⟨.inr hdies, fun o => Nat.le_trans (le_took o .fs)
          (Nat.le_trans (le_took o (.node n)) (hk o))⟩
      · refine ⟨not_or.mpr ⟨hread, hno⟩, ⟨rfl, n, hopen, hsome⟩, ?_⟩
        rw [hk, gave_comm, took_gave]

/-! ## Every call -/

theorem handler_ends {n : Nat} (hn : n < 14) :
    Ends c p (c.accesses g p k n) (c.starts p k n) k (handler g c p n) := by
  have other : ∀ {m : Nat} {as : List Word} {x : Kern Word}, m ≠ 9 → Ends c p as False k x →
      Ends c p as (c.starts p k m) k x := by
    intro m as x hne hx
    rwa [show c.starts p k m = False from propext ⟨fun h => hne h.1, False.elim⟩]
  unfold handler
  split
  · exact other (by decide) exit_ends
  · exact other (by decide) write_stays.ends
  · exact other (by decide) fork_stays.ends
  · exact other (by decide) sem_stays.ends
  · exact other (by decide) up_stays.ends
  · exact other (by decide) up_stays.ends
  · exact other (by decide) close_stays.ends
  · exact other (by decide) shutdown_ends
  · exact other (by decide) wait_stays.ends
  · exact execl_ends
  · exact other (by decide) open_stays.ends
  · exact other (by decide) len_stays.ends
  · exact other (by decide) read_stays.ends
  · exact other (by decide) seek_stays.ends
  · exact absurd hn (by grind)

/-- The page fault handler ends the call. -/
def Call.dies (g : Config) (c : Call) (p : Nat) (k : Kernel) : Prop :=
  c.refusesOne (c.accesses g p k c.num.toNat)

instance : Decidable (c.dies g p k) := inferInstanceAs (Decidable (c.refusesOne _))

theorem sysHandler_ends :
    wp (sysHandler g c p)
      (fun _ k' => ¬c.dies g p k ∧ ¬c.starts p k c.num.toNat ∧ k'.held = k.held)
      (fun l k' =>
        match l with
        | .waits => ¬c.dies g p k ∧ ¬c.starts p k c.num.toNat
        | .killed => c.dies g p k ∧ ∀ o, (k.took (.pcb p)).held o ≤ k'.held o
        | .exit | .shutdown => ¬c.dies g p k ∧ ¬c.starts p k c.num.toNat ∧ k'.held = k.held
        | .user _ _ => ¬c.dies g p k ∧ c.starts p k c.num.toNat ∧ k'.held = (k.took .fs).held) k := by
  unfold sysHandler
  split
  · rename_i hge
    rw [BitVec.le_def] at hge
    have hnum : 14 ≤ c.num.toNat := hge
    have hnone : c.accesses g p k c.num.toNat = [] := by
      unfold Call.accesses
      split <;> first | rfl | omega
    refine ⟨?_, fun h => ?_, rfl⟩
    · unfold Call.dies
      rw [hnone]
      exact not_refused_nil
    · have h9 := h.1
      omega
  rename_i hlt
  rw [wp_holding]
  have hnum : c.num.toNat < 14 := by
    rw [BitVec.le_def] at hlt
    exact Nat.not_le.mp hlt
  have hends := handler_ends (g := g) (c := c) (p := p) (k := k.took (.pcb p)) hnum
  refine wp_mono hends (fun r k' h => ⟨h.1, h.2.1, held_back h.2.2⟩) fun l k' h => ?_
  cases l with
  | waits => exact h
  | killed => exact h
  | exit => exact ⟨h.1, h.2.1, h.2.2.trans (congrArg Kernel.held (took_gave _))⟩
  | shutdown => exact ⟨h.1, h.2.1, h.2.2.trans (congrArg Kernel.held (took_gave _))⟩
  | user entry esp => exact ⟨h.1, h.2.1, h.2.2.trans (congrArg Kernel.held (took_took_gave _ _))⟩

/-- However the call leaves, it has given back what it took. -/
def Balanced (g : Config) (c : Call) (p : Nat) (k : Kernel) : Prop :=
  wp (sysHandler g c p) (fun _ k' => k'.held = k.held)
    (fun l k' => l ≠ .waits → k'.held = k.held) k

theorem held_took_self (o : Obj) : (k.took o).held o = k.held o + 1 := by
  rw [held_took, if_pos rfl]

theorem balanced_iff : Balanced g c p k ↔ ¬c.dies g p k ∧ ¬c.starts p k c.num.toNat := by
  constructor
  · intro hb
    by_contra hno
    have hfalse : wp (sysHandler g c p) (fun _ _ => False) (fun _ _ => False) k := by
      refine wp_mono (wp_and hb sysHandler_ends) (fun r k' h => hno ⟨h.2.1, h.2.2.1⟩) fun l k' h => ?_
      obtain ⟨hheld, h⟩ := h
      cases l with
      | waits => exact hno h
      | killed =>
        have hle := h.2 (.pcb p)
        rw [hheld nofun, held_took_self] at hle
        exact Nat.not_succ_le_self _ hle
      | exit => exact hno ⟨h.1, h.2.1⟩
      | shutdown => exact hno ⟨h.1, h.2.1⟩
      | user entry esp =>
        have hfs := congrFun ((hheld nofun).symm.trans h.2.2) .fs
        rw [held_took_self] at hfs
        exact Nat.succ_ne_self _ hfs.symm
    obtain ⟨_, _, _, h⟩ := wp_returns hfalse
    exact h
  · rintro ⟨hdies, hstarts⟩
    refine wp_mono sysHandler_ends (fun r k' h => h.2.2) fun l k' h hl => ?_
    cases l with
    | waits => exact absurd rfl hl
    | killed => exact absurd h.1 hdies
    | exit => exact h.2.2
    | shutdown => exact h.2.2
    | user entry esp => exact absurd h.2.1 hstarts

/-! ## Runs -/

/-- No process control block is held on a kernel stack. -/
def Clean (k : Kernel) : Prop := ∀ q, k.held (.pcb q) = 0

/-- The event is not a call that the page fault handler ends. -/
def Event.survives (g : Config) (k : Kernel) : Event → Prop
  | .call p c => ¬c.dies g p k
  | .reap _ => True

theorem Clean.step {k' : Kernel} {e : Event} (h : Clean k) (he : e.survives g k)
    (hs : step g k e = some k') : Clean k' := by
  cases e with
  | reap p =>
    simp only [Sys.step] at hs
    split at hs
    · cases hs
      exact h
    · cases hs
  | call p c =>
    have hfs : ∀ q, (k.took .fs).held (.pcb q) = k.held (.pcb q) := fun q => by
      rw [held_took, if_neg nofun]
    have hends := sysHandler_ends (g := g) (c := c) (p := p) (k := k)
    simp only [Sys.step] at hs
    split at hs
    case isFalse => cases hs
    split at hs
    · rename_i r k₂ hrun
      cases hs
      have hheld := (wp_ok hends hrun).2.2
      exact fun q => (congrFun hheld _).trans (h q)
    · cases hs
    · rename_i l k₂ hl hrun
      cases hs
      have hout := wp_error hends hrun
      intro q
      cases l with
      | waits => exact absurd rfl hl
      | killed => exact absurd hout.1 he
      | exit => exact (congrFun hout.2.2 _).trans (h q)
      | shutdown => exact (congrFun hout.2.2 _).trans (h q)
      | user entry esp => exact (congrFun hout.2.2 _).trans ((hfs q).trans (h q))

/-- A call gives back every handle it took, exactly if the page fault handler does not end it and
it does not start a program. If no call of a run is ended by the page fault handler, nothing holds
the control block of a process once its TCB is deleted. -/
theorem handles_balance (g : Config) :
    (∀ (c : Call) (p : Nat) (k : Kernel),
      Balanced g c p k ↔ ¬c.dies g p k ∧ ¬c.starts p k c.num.toNat) ∧
    ∀ (root : Nat) (es : List Event) (k : Kernel),
      RunOk (step g) (fun k e => e.survives g k) (Kernel.init root) es →
      runs (step g) (Kernel.init root) es = some k →
      ∀ p, (k.procs p).life = .deleted → k.refCount p = 0 := by
  refine ⟨fun c p k => balanced_iff, fun root es k hok hr p hp => ?_⟩
  have hclean : Clean k := runs_inv Clean (fun _ _ _ h he hs => h.step he hs) (fun _ => rfl) hok hr
  unfold Kernel.refCount
  rw [hp, hclean p]

/-- `exit(0)`, after which the TCB is deleted. -/
theorem handles_balance_exit :
    let c : Call := ⟨0, 0xfebfff00, fun _ => 0, fun _ => false, fun _ => 0, [], [], false,
      fun _ => none, fun _ => 0⟩
    ∃ k, runs (step ⟨0xfee00000, 0xfec00000⟩) (Kernel.init 2) [.call 0 c, .reap 0] = some k ∧
      (k.procs 0).life = .deleted ∧ k.refCount 0 = 0 := by
  intro c
  have heval : (runs (step ⟨0xfee00000, 0xfec00000⟩) (Kernel.init 2) [.call 0 c, .reap 0]).any
      (fun k => decide ((k.procs 0).life = .deleted)) = true := by decide +kernel
  obtain ⟨k, hr, hk⟩ := (Option.any_eq_true _ _).mp heval
  have hok : RunOk (step ⟨0xfee00000, 0xfec00000⟩) (fun k e => e.survives ⟨0xfee00000, 0xfec00000⟩ k)
      (Kernel.init 2) [.call 0 c, .reap 0] := by
    refine ⟨?_, fun _ _ => ⟨trivial, fun _ _ => trivial⟩⟩
    rintro ⟨a, -, ha⟩
    cases ha
  have hdel := of_decide_eq_true hk
  exact ⟨k, hr, hdel, (handles_balance ⟨0xfee00000, 0xfec00000⟩).2 2 _ k hok hr 0 hdel⟩

/-- `open(0)`. -/
def openNull : Call where
  num := 10
  argp := 0xfebfff00
  args _ := 0
  refused a := a = 0
  strlen _ := 0
  argv := []
  search := []
  found := false
  image _ := none
  size _ := 0

/-- The process is ended while the path is read. Its TCB is deleted, and a handle on its control
block is left. -/
theorem control_block_kept :
    ¬Balanced ⟨0xfee00000, 0xfec00000⟩ openNull 0 (Kernel.init 2) ∧
      ∃ k, runs (step ⟨0xfee00000, 0xfec00000⟩) (Kernel.init 2) [.call 0 openNull, .reap 0] = some k ∧
        (k.procs 0).life = .deleted ∧ k.refCount 0 = 1 := by
  refine ⟨fun h => (balanced_iff.mp h).1 (by decide +kernel), ?_⟩
  have heval : (runs (step ⟨0xfee00000, 0xfec00000⟩) (Kernel.init 2)
      [.call 0 openNull, .reap 0]).any
      (fun k => decide ((k.procs 0).life = .deleted ∧ k.refCount 0 = 1)) = true := by
    decide +kernel
  obtain ⟨k, hr, hk⟩ := (Option.any_eq_true _ _).mp heval
  exact ⟨k, hr, of_decide_eq_true hk⟩

end OsKernel.Sys
