import OsKernel.Sys.Rules

/-!
# Descriptor tables as bounded maps

What a system call can do to the descriptor tables, said once for each way it ends, and from
it what holds in every run: a descriptor goes on naming its object until its process gives it
up, and no two descriptors of a process name one object.

`Effect` is for a call that returns and `Gone` for one that does not. Each lists the few
things that can happen: the tables are as they were, one slot is filled with a new number, one
slot is filled and a child made, one slot is emptied, the semaphores go. `handler_confined`
says of every handler that it does one of these. What holds in runs is then a matter of seven
cases, and not of fourteen handlers; that part is in `Sys/Maps.lean`.

`Effect` is not exact. It does not say when a call succeeds, as for the invariants it does not
matter, and it is what every call keeps to, also one that is given nonsense. The second half
of the file has the other direction, call by call: what is served where the descriptor names
something or a slot is free (`fork_serves`, `close_serves` and so on), and that -1 comes back
and nothing has changed where it does not (`sysHandler_fails`). These are exact up to one
thing, that the page fault handler may end the process at an address that it refuses; each of
them says at which addresses.

The three kinds of descriptor are one parameter here (`Kind`). The source has three tables,
and the calls say which one they mean.
-/

set_option autoImplicit false

namespace OsKernel.Sys

open Lib Prog

/-! ## The three tables -/

inductive Kind
  | fd
  | pd
  | sd
  deriving DecidableEq

def Kind.tag : Kind → Word
  | .fd => typeFd
  | .pd => typePd
  | .sd => typeSd

theorem Kind.isTag (κ : Kind) : IsTag κ.tag := by
  cases κ with
  | fd => exact isTag_fd
  | pd => exact isTag_pd
  | sd => exact isTag_sd

theorem Kind.tag_inj {κ κ' : Kind} (h : κ.tag = κ'.tag) : κ = κ' := by
  cases κ <;> cases κ' <;> first | rfl | exact absurd h (by decide)

/-- The kind and the index can be read off a name. -/
theorem Kind.name_inj {κ κ' : Kind} {i i' : Fin 10} (h : name κ.tag i = name κ'.tag i') :
    κ = κ' ∧ i = i' := by
  have htag : κ.tag = κ'.tag := by
    rw [← name_type κ.isTag i, h, name_type κ'.isTag]
  obtain rfl := Kind.tag_inj htag
  exact ⟨rfl, Sys.name_inj κ.isTag h⟩

def Process.table (proc : Process) : Kind → Table
  | .fd => proc.fdt
  | .pd => proc.pdt
  | .sd => proc.sdt

def Process.setTable (proc : Process) (t : Table) : Kind → Process
  | .fd => { proc with fdt := t }
  | .pd => { proc with pdt := t }
  | .sd => { proc with sdt := t }

/-- Slot `i` of a table holds `v`. -/
def Process.putSlot (proc : Process) (κ : Kind) (i : Fin 10) (v : Option Nat) : Process :=
  proc.setTable ((proc.table κ).put i v) κ

@[simp] theorem putSlot_life (proc : Process) (κ : Kind) (i : Fin 10) (v : Option Nat) :
    (proc.putSlot κ i v).life = proc.life := by
  cases κ <;> rfl

@[simp] theorem putSlot_self (proc : Process) (κ : Kind) (i : Fin 10) (v : Option Nat) :
    (proc.putSlot κ i v).table κ i = v := by
  cases κ <;> exact Table.put_self v

theorem putSlot_ne (proc : Process) {κ κ' : Kind} {i j : Fin 10} (v : Option Nat)
    (h : ¬(κ' = κ ∧ j = i)) : (proc.putSlot κ i v).table κ' j = proc.table κ' j := by
  by_cases hκ : κ' = κ
  · subst hκ
    have hj : j ≠ i := fun hj => h ⟨rfl, hj⟩
    cases κ' <;> exact Table.put_ne v hj
  · cases κ <;> cases κ' <;> first | rfl | exact absurd rfl hκ

/-- What a process finds under a descriptor. -/
def Kernel.lookup (k : Kernel) (p : Nat) (κ : Kind) (des : Word) : Option Nat :=
  ((k.procs p).table κ).get κ.tag des

/-- How `Process::wait` ends. -/
theorem wp_processWait {c : Call} {p : Nat} {k : Kernel} {Q : Word → Kernel → Prop}
    {E : Leave → Kernel → Prop} (des status : Word) :
    wp (Process.wait c p des status) Q E k ↔
      match k.lookup p .pd des with
      | none => Q failed k
      | some o =>
        match k.status (k.child o) with
        | none => E .waits k
        | some _ =>
          if c.refusesOne (span status 4) then
            E .killed ((k.stored (c.before (span status 4))).killed p)
          else ∃ i, des = name typePd i ∧ (k.procs p).pdt i = some o ∧
            Q 0#32 ((k.stored (span status 4)).setProc p ((k.procs p).putSlot .pd i none)) := by
  have hdef : k.lookup p .pd des = (k.procs p).pdt.get typePd des := rfl
  rw [hdef]
  unfold Process.wait
  by_cases htype : des &&& typeMask = typePd
  case neg => rw [if_pos htype, Table.get_wrong_type htype, wp_pure]
  rw [if_neg (not_not.mpr htype)]
  by_cases hlt : (des &&& numMask).toNat < 10
  case neg => rw [dif_neg hlt, Table.get_out_of_range (Nat.not_lt.mp hlt), wp_pure]
  have hdes : des = name typePd ⟨_, hlt⟩ := eq_name htype rfl
  have hget : (k.procs p).pdt.get typePd des = (k.procs p).pdt ⟨_, hlt⟩ := by
    conv_lhs => rw [hdes]
    exact Table.get_name isTag_pd
  rw [dif_pos hlt, hget]
  simp only [wp_bind, wp_process]
  cases hslot : (k.procs p).pdt ⟨_, hlt⟩ with
  | none => simp only [pdWait, wp_pure, if_true]
  | some o =>
    simp only [pdWait, wp_bind, wp_get]
    cases k.status (k.child o) with
    | none => rfl
    | some v =>
      have hne : (0#32 : Word) ≠ failed := by decide
      simp only [wp_bind, wp_storeAll, wp_pure, if_neg hne, wp_process, wp_setProcess]
      split
      · rfl
      · refine ⟨fun h => ⟨_, hdes, hslot, h⟩, ?_⟩
        rintro ⟨i, hi, -, h⟩
        obtain rfl := name_inj isTag_pd (hdes.symm.trans hi)
        exact h

/-! ## What a call does to the tables -/

/-- The calls that make a descriptor. -/
def Call.creates (c : Call) : Kind → Prop
  | .fd => c.num = 10#32
  | .pd => c.num = 2#32
  | .sd => c.num = 3#32

/-- The processes and the unused numbers after a call of `p` that returns. -/
inductive Effect (c : Call) (p : Nat) (procs : Nat → Process) (next : Nat) :
    Word → (Nat → Process) → Nat → Prop
  | same {r : Word} (h : ∀ κ, c.creates κ → r = failed) : Effect c p procs next r procs next
  | made {κ : Kind} {i : Fin 10} (hc : c.creates κ) (hκ : κ ≠ .pd)
      (hfree : ((procs p).table κ).free = some i) :
      Effect c p procs next (name κ.tag i)
        (Function.update procs p ((procs p).putSlot κ i (some next))) (next + 1)
  | forked {i : Fin 10} {procs' : Nat → Process} (hc : c.creates .pd)
      (hfree : (procs p).pdt.free = some i)
      (hchild : procs' = Function.update procs next (procs p).clone) :
      Effect c p procs next (name typePd i)
        (Function.update procs' p ((procs' p).putSlot .pd i (some (next + 1)))) (next + 2)
  | dropped {κ : Kind} {i : Fin 10} {o : Nat} (hdes : c.args 0 = name κ.tag i)
      (hnum : c.num = 6#32 ∨ c.num = 8#32 ∧ κ = .pd) (hslot : (procs p).table κ i = some o) :
      Effect c p procs next 0#32 (Function.update procs p ((procs p).putSlot κ i none)) next

/-- The same for a call that does not return. -/
inductive Gone (c : Call) (p : Nat) (procs : Nat → Process) (next : Nat) :
    Leave → (Nat → Process) → Nat → Prop
  | ended {l : Leave} {proc : Process} (hl : l = .exit ∨ l = .killed ∨ l = .shutdown)
      (hstop : proc.life = .stopped)
      (hsub : ∀ {κ i o}, proc.table κ i = some o → (procs p).table κ i = some o) :
      Gone c p procs next l (Function.update procs p proc) next
  | user {entry esp : Word} (hnum : c.num = 9#32) :
      Gone c p procs next (.user entry esp) (Function.update procs p (procs p).reset) next
  | waits {procs' : Nat → Process} {next' : Nat} : Gone c p procs next .waits procs' next'

/-- What every handler keeps to. -/
def Confined (c : Call) (p : Nat) (k : Kernel) (x : Kern Word) : Prop :=
  wp x (fun r k' => Effect c p k.procs k.next r k'.procs k'.next)
    (fun l k' => Gone c p k.procs k.next l k'.procs k'.next) k

variable {g : Config} {c : Call} {p : Nat} {k : Kernel}

theorem setProc_procs (q : Nat) (proc : Process) :
    (k.setProc q proc).procs = Function.update k.procs q proc := rfl

theorem stopped_procs :
    (k.stopped p).procs = Function.update k.procs p { k.procs p with life := .stopped } := rfl

theorem killed_procs :
    (k.killed p).procs = Function.update k.procs p { k.procs p with life := .stopped } := rfl

/-- The end of the thread leaves the tables alone. -/
theorem stopped_sub (proc : Process) {κ : Kind} {i : Fin 10} {o : Nat}
    (h : ({ proc with life := .stopped } : Process).table κ i = some o) :
    proc.table κ i = some o := by
  cases κ <;> exact h

theorem reset_sub (proc : Process) {κ : Kind} {i : Fin 10} {o : Nat}
    (h : proc.reset.table κ i = some o) : proc.table κ i = some o := by
  cases κ with
  | fd => exact h
  | pd => exact h
  | sd => cases h

theorem Gone.killed :
    Gone c p k.procs k.next .killed
      (Function.update k.procs p { k.procs p with life := .stopped }) k.next :=
  .ended (.inr (.inl rfl)) rfl (stopped_sub _)

theorem Call.not_creates {n : Word} (hn : c.num = n) (h10 : n ≠ 10#32) (h2 : n ≠ 2#32)
    (h3 : n ≠ 3#32) (κ : Kind) : ¬c.creates κ := by
  intro hc
  cases κ with
  | fd => exact h10 (hn.symm.trans hc)
  | pd => exact h2 (hn.symm.trans hc)
  | sd => exact h3 (hn.symm.trans hc)

/-- A call that makes no descriptor may leave everything as it is. -/
theorem Effect.unchanged {r : Word} {n : Word} (hn : c.num = n) (h10 : n ≠ 10#32) (h2 : n ≠ 2#32)
    (h3 : n ≠ 3#32) : Effect c p k.procs k.next r k.procs k.next :=
  .same fun κ hc => absurd hc (Call.not_creates hn h10 h2 h3 κ)

/-! ### Handlers that leave the tables alone -/

theorem exit_confined : Confined c p k (exit c p) := by
  simp only [Confined, exit, wp_bind, wp_arg, wp_setStatus, wp_release, wp_stop, killed_procs,
    stopped_procs, killed_next, stopped_next, gave_procs, gave_next, setStatus_procs,
    setStatus_next]
  split
  · exact Gone.killed
  · exact .ended (.inl rfl) rfl (stopped_sub _)

theorem shutdown_confined : Confined c p k (shutdown p) := by
  simp only [Confined, shutdown, wp_bind, wp_release, wp_stop, stopped_procs, stopped_next,
    gave_procs, gave_next]
  exact .ended (.inr (.inr rfl)) rfl (stopped_sub _)

/-- The methods of the objects do not touch the tables. -/
def Quiet (p : Nat) (k : Kernel) (x : Kern Word) : Prop :=
  wp x (fun _ k' => k'.procs = k.procs ∧ k'.next = k.next)
    (fun l k' => l = .killed ∧ k'.next = k.next ∧
      k'.procs = Function.update k.procs p { k.procs p with life := .stopped }) k

theorem fdWrite_quiet (o : Option Nat) (buffer len : Word) : Quiet p k (fdWrite c p o buffer len) := by
  cases o with
  | none => exact ⟨rfl, rfl⟩
  | some o =>
    simp only [Quiet, fdWrite, wp_bind, wp_file]
    split <;> simp [killed_procs]

theorem fdLen_quiet (o : Option Nat) : Quiet p k (fdLen c o) := by
  cases o with
  | none => exact ⟨rfl, rfl⟩
  | some o =>
    simp only [Quiet, fdLen, wp_bind, wp_file]
    split <;> simp

theorem fdRead_quiet (o : Option Nat) (buffer len : Word) : Quiet p k (fdRead c p o buffer len) := by
  cases o with
  | none => exact ⟨rfl, rfl⟩
  | some o =>
    simp only [Quiet, fdRead, wp_bind, wp_file]
    split <;> simp [killed_procs]

theorem fdSeek_quiet (o : Option Nat) (offset : Word) : Quiet p k (fdSeek o offset) := by
  cases o with
  | none => exact ⟨rfl, rfl⟩
  | some o =>
    simp only [Quiet, fdSeek, wp_bind, wp_file]
    split <;> simp

/-- A handler that calls a method of an object and returns what it returns. -/
theorem Confined.method {o : Obj} {x : Kern Word} {n : Word} (hn : c.num = n) (h10 : n ≠ 10#32)
    (h2 : n ≠ 2#32) (h3 : n ≠ 3#32) (h : Quiet p (k.took o) x) :
    wp (holding o x) (fun r k' => Effect c p k.procs k.next r k'.procs k'.next)
      (fun l k' => Gone c p k.procs k.next l k'.procs k'.next) k := by
  refine (wp_holding o x).mpr (wp_mono h ?_ ?_)
  · intro r k' ⟨hprocs, hnext⟩
    simp only [gave_procs, gave_next, hprocs, hnext, took_procs, took_next]
    exact Effect.unchanged hn h10 h2 h3
  · intro l k' ⟨hl, hnext, hprocs⟩
    simp only [hl, hprocs, hnext, took_procs, took_next]
    exact Gone.killed

theorem write_confined (hn : c.num = 1#32) : Confined c p k (write g c p) := by
  simp only [Confined, write, wp_bind, wp_arg, wp_ite, wp_pure, wp_process, killed_procs,
    killed_next]
  split
  · exact Gone.killed
  split
  · exact Gone.killed
  split
  · exact Effect.unchanged hn (by decide) (by decide) (by decide)
  split
  · exact Gone.killed
  exact Confined.method hn (by decide) (by decide) (by decide) (fdWrite_quiet ..)

theorem read_confined (hn : c.num = 12#32) : Confined c p k (read g c p) := by
  simp only [Confined, read, wp_bind, wp_arg, wp_ite, wp_pure, wp_process, killed_procs,
    killed_next]
  split
  · exact Gone.killed
  split
  · exact Gone.killed
  split
  · exact Effect.unchanged hn (by decide) (by decide) (by decide)
  split
  · exact Gone.killed
  exact Confined.method hn (by decide) (by decide) (by decide) (fdRead_quiet ..)

theorem len_confined (hn : c.num = 11#32) : Confined c p k (len c p) := by
  simp only [Confined, len, wp_bind, wp_arg, wp_process, killed_procs, killed_next]
  split
  · exact Gone.killed
  exact Confined.method hn (by decide) (by decide) (by decide) (fdLen_quiet _)

theorem seek_confined (hn : c.num = 13#32) : Confined c p k (seek c p) := by
  simp only [Confined, seek, wp_bind, wp_arg, wp_process, killed_procs, killed_next]
  split
  · exact Gone.killed
  split
  · exact Gone.killed
  exact Confined.method hn (by decide) (by decide) (by decide) (fdSeek_quiet _ _)

/-- `up` and `down`. -/
theorem up_confined {n : Word} (hn : c.num = n) (h10 : n ≠ 10#32) (h2 : n ≠ 2#32)
    (h3 : n ≠ 3#32) : Confined c p k (up c p) := by
  simp only [Confined, up, wp_bind, wp_arg, wp_process, killed_procs, killed_next]
  split
  · exact Gone.killed
  exact Confined.method hn h10 h2 h3 ⟨rfl, rfl⟩

/-! ### Handlers that empty a slot -/

theorem Table.close_eq_some {t t' : Table} {tag des : Word} (htype : des &&& typeMask = tag)
    (h : t.close des = some t') :
    ∃ i o, des = name tag i ∧ t i = some o ∧ t' = t.put i none := by
  unfold Table.close at h
  split at h
  · rename_i hlt
    split at h
    · cases h
    · rename_i hslot
      obtain ⟨o, ho⟩ := Option.ne_none_iff_exists'.mp hslot
      exact ⟨⟨_, hlt⟩, o, eq_name htype rfl, ho, (Option.some.inj h).symm⟩
  · cases h

/-- `close` empties the slot its argument names. -/
theorem Process.close_eq_some {proc proc' : Process} {des : Word}
    (h : proc.close des = some proc') :
    ∃ κ i o, des = name (Kind.tag κ) i ∧ proc.table κ i = some o ∧ proc' = proc.putSlot κ i none := by
  unfold Process.close at h
  split at h
  · rename_i htype
    obtain ⟨t, ht, rfl⟩ := Option.map_eq_some_iff.mp h
    obtain ⟨i, o, hdes, ho, rfl⟩ := Table.close_eq_some htype ht
    exact ⟨.fd, i, o, hdes, ho, rfl⟩
  split at h
  · rename_i htype
    obtain ⟨t, ht, rfl⟩ := Option.map_eq_some_iff.mp h
    obtain ⟨i, o, hdes, ho, rfl⟩ := Table.close_eq_some htype ht
    exact ⟨.pd, i, o, hdes, ho, rfl⟩
  split at h
  · rename_i htype
    obtain ⟨t, ht, rfl⟩ := Option.map_eq_some_iff.mp h
    obtain ⟨i, o, hdes, ho, rfl⟩ := Table.close_eq_some htype ht
    exact ⟨.sd, i, o, hdes, ho, rfl⟩
  · cases h

theorem close_confined (hn : c.num = 6#32) : Confined c p k (close c p) := by
  simp only [Confined, close, wp_bind, wp_arg, wp_process, killed_procs, killed_next]
  split
  · exact Gone.killed
  cases hc : (k.procs p).close (c.args 0) with
  | none => exact Effect.unchanged hn (by decide) (by decide) (by decide)
  | some proc =>
    obtain ⟨κ, i, o, hdes, ho, rfl⟩ := Process.close_eq_some hc
    exact .dropped hdes (.inl hn) ho

theorem wait_confined (hn : c.num = 8#32) : Confined c p k (wait c p) := by
  simp only [Confined, wait, wp_bind, wp_arg, wp_processWait, killed_procs, killed_next]
  split
  · exact Gone.killed
  split
  · exact Gone.killed
  cases hslot : k.lookup p .pd (c.args 0) with
  | none => exact Effect.unchanged hn (by decide) (by decide) (by decide)
  | some o =>
    simp only
    cases k.status (k.child o) with
    | none => exact .waits
    | some v =>
      simp only
      split
      · exact Gone.killed
      · obtain ⟨i, hdes, ho⟩ := (Table.get_eq_some isTag_pd).mp hslot
        exact ⟨i, hdes, ho, .dropped (κ := .pd) hdes (.inr ⟨hn, rfl⟩) ho⟩

/-! ### Handlers that fill a slot -/

theorem sem_confined (hn : c.num = 3#32) : Confined c p k (sem c p) := by
  simp only [Confined, sem, setSd, wp_bind, wp_process]
  cases hfree : (k.procs p).sdt.free with
  | none => exact .same fun _ _ => rfl
  | some i =>
    simp only [wp_bind, wp_arg, wp_fresh, wp_take, wp_pure, wp_process, wp_setProcess, wp_release,
      killed_procs, killed_next, gave_procs, gave_next, took_procs, took_next, setProc_procs,
      setProc_next, bumped_procs, bumped_next]
    split
    · exact Gone.killed
    · exact .made (κ := .sd) hn (by decide) hfree

theorem fork_confined (hn : c.num = 2#32) : Confined c p k (fork p) := by
  simp only [Confined, fork, wp_holding, setPd, wp_bind, wp_process, took_procs]
  cases hfree : (k.procs p).pdt.free with
  | none => exact .same fun _ _ => rfl
  | some i =>
    simp only [forkChild, wp_bind, wp_fresh, wp_take, wp_pure, wp_process, wp_setProcess,
      wp_release, wp_setChild, gave_procs, gave_next, took_procs, took_next, setChild_procs,
      setChild_next, setProc_procs, setProc_next, bumped_procs, bumped_next]
    exact .forked hn hfree rfl

theorem open_confined (hn : c.num = 10#32) : Confined c p k (open_ c p) := by
  simp only [Confined, open_, wp_bind, wp_process, wp_holding, wp_arg, wp_openFile, killed_procs,
    killed_next, took_procs, took_next]
  split
  · exact Gone.killed
  split
  · exact Gone.killed
  cases hnode : c.opened (k.procs p).cd with
  | none => exact .same fun _ _ => rfl
  | some node =>
    simp only [wp_bind, wp_holding, setFd, wp_process, took_procs, tookNode_procs]
    cases hfree : (k.procs p).fdt.free with
    | none =>
      simp only [wp_pure, wp_release, gave_procs, gave_next, took_procs, took_next, tookNode_procs,
        tookNode_next]
      exact .same fun _ _ => rfl
    | some i =>
      simp only [wp_bind, wp_fresh, wp_holding, wp_setFile, wp_take, wp_pure, wp_process,
        wp_setProcess, wp_release, gave_procs, gave_next, took_procs, took_next, setFile_procs,
        setFile_next, setProc_procs, setProc_next, bumped_procs, bumped_next, tookNode_procs,
        tookNode_next]
      exact .made (κ := .fd) hn (by decide) hfree

/-! ### `execl` -/

theorem exec_confined {n : Nat} (hn : c.num = 9#32) : Confined c p k (exec g c p n) := by
  simp only [Confined, exec, wp_bind, wp_touchAll, wp_holding, wp_pure, killed_procs, killed_next]
  split
  · exact Gone.killed
  cases himage : c.image n with
  | none => exact Effect.unchanged hn (by decide) (by decide) (by decide)
  | some image =>
    simp only [wp_bind, wp_touchAll, wp_process, wp_setProcess, wp_holding, wp_storeAll, wp_release,
      wp_throw, killed_procs, killed_next, took_procs, took_next, gave_procs, gave_next,
      stored_procs, stored_next, setProc_procs, setProc_next, Function.update_self,
      Function.update_idem]
    split
    · exact Gone.killed
    split
    · exact .ended (.inr (.inl rfl)) rfl fun h => reset_sub _ (stopped_sub _ h)
    split
    · exact .ended (.inr (.inl rfl)) rfl fun h => reset_sub _ (stopped_sub _ h)
    split
    · exact .ended (.inr (.inl rfl)) rfl fun h => reset_sub _ (stopped_sub _ h)
    · exact .user hn

theorem execl_confined (hn : c.num = 9#32) : Confined c p k (execl g c p) := by
  simp only [Confined, execl, wp_bind, wp_process, wp_holding, wp_arg, wp_openFile, killed_procs,
    killed_next, took_procs, took_next]
  split
  · exact Gone.killed
  split
  · exact Gone.killed
  cases hnode : c.opened (k.procs p).cd with
  | none => exact Effect.unchanged hn (by decide) (by decide) (by decide)
  | some node =>
    simp only [wp_bind, wp_release, wp_pure, gave_procs, gave_next]
    have h := exec_confined (g := g) (p := p) (n := node)
      (k := (k.took .fs).tookNode (some node)) hn
    simpa only [Confined, tookNode_procs, tookNode_next, took_procs, took_next] using h

/-! ### Every call -/

theorem handler_confined (n : Nat) (hn : c.num = BitVec.ofNat 32 n) :
    Confined c p k (handler g c p n) := by
  unfold handler
  split
  · exact exit_confined
  · exact write_confined hn
  · exact fork_confined hn
  · exact sem_confined hn
  · exact up_confined hn (by decide) (by decide) (by decide)
  · exact up_confined hn (by decide) (by decide) (by decide)
  · exact close_confined hn
  · exact shutdown_confined
  · exact wait_confined hn
  · exact execl_confined hn
  · exact open_confined hn
  · exact len_confined hn
  · exact read_confined hn
  · exact seek_confined hn
  · exact .same fun _ _ => rfl

theorem sysHandler_confined : Confined c p k (sysHandler g c p) := by
  unfold sysHandler
  split
  · exact .same fun _ _ => rfl
  · have h := handler_confined (g := g) (c := c) (p := p) (k := k.took (.pcb p)) c.num.toNat
      (BitVec.ofNat_toNat 32 c.num).symm
    simpa only [Confined, wp_holding, gave_procs, gave_next, took_procs, took_next] using h

/-- A handler, with the handle that `sysHandler` holds. -/
theorem wp_sysHandler {Q : Word → Kernel → Prop} {E : Leave → Kernel → Prop} (h : c.num.toNat < 14) :
    wp (sysHandler g c p) Q E k ↔
      wp (handler g c p c.num.toNat) (fun r k' => Q r (k'.gave (.pcb p))) E (k.took (.pcb p)) := by
  have hge : ¬14#32 ≤ c.num := by
    rw [BitVec.le_def]
    exact Nat.not_le.mpr h
  unfold sysHandler
  rw [if_neg hge, wp_holding]

/-! ## Operations on what is not there -/

/-- The calls on a descriptor, with the table it is looked up in. -/
def Call.uses (c : Call) : Kind → Prop
  | .fd => c.num = 1#32 ∨ c.num = 11#32 ∨ c.num = 12#32 ∨ c.num = 13#32 ∨ c.num = 6#32
  | .pd => c.num = 8#32 ∨ c.num = 6#32
  | .sd => c.num = 4#32 ∨ c.num = 5#32 ∨ c.num = 6#32

/-- The call returns `-1` and changes no table, unless its arguments cannot be read. -/
def Fails (c : Call) (k : Kernel) (x : Kern Word) : Prop :=
  wp x (fun r k' => r = failed ∧ k'.procs = k.procs)
    (fun l _ => l = .killed ∧ ∃ i, c.refusesOne (argBytes c i)) k

theorem write_fails (h : k.lookup p .fd (c.args 0) = none) : Fails c k (write g c p) := by
  have hget : (k.procs p).fdt.get typeFd (c.args 0) = none := h
  simp only [Fails, write, wp_bind, wp_arg, wp_ite, wp_pure, wp_process, wp_holding, hget, fdWrite]
  split
  · exact ⟨trivial, _, ‹_›⟩
  split
  · exact ⟨trivial, _, ‹_›⟩
  split
  · exact ⟨trivial, trivial⟩
  split
  · exact ⟨trivial, _, ‹_›⟩
  · exact ⟨trivial, rfl⟩

theorem read_fails (h : k.lookup p .fd (c.args 0) = none) : Fails c k (read g c p) := by
  have hget : (k.procs p).fdt.get typeFd (c.args 0) = none := h
  simp only [Fails, read, wp_bind, wp_arg, wp_ite, wp_pure, wp_process, wp_holding, hget, fdRead]
  split
  · exact ⟨trivial, _, ‹_›⟩
  split
  · exact ⟨trivial, _, ‹_›⟩
  split
  · exact ⟨trivial, trivial⟩
  split
  · exact ⟨trivial, _, ‹_›⟩
  · exact ⟨trivial, rfl⟩

theorem len_fails (h : k.lookup p .fd (c.args 0) = none) : Fails c k (len c p) := by
  have hget : (k.procs p).fdt.get typeFd (c.args 0) = none := h
  simp only [Fails, len, wp_bind, wp_arg, wp_pure, wp_process, wp_holding, hget, fdLen]
  split
  · exact ⟨trivial, _, ‹_›⟩
  · exact ⟨trivial, rfl⟩

theorem seek_fails (h : k.lookup p .fd (c.args 0) = none) : Fails c k (seek c p) := by
  have hget : (k.procs p).fdt.get typeFd (c.args 0) = none := h
  simp only [Fails, seek, wp_bind, wp_arg, wp_pure, wp_process, wp_holding, hget, fdSeek]
  split
  · exact ⟨trivial, _, ‹_›⟩
  split
  · exact ⟨trivial, _, ‹_›⟩
  · exact ⟨trivial, rfl⟩

theorem up_fails (h : k.lookup p .sd (c.args 0) = none) : Fails c k (up c p) := by
  have hget : (k.procs p).sdt.get typeSd (c.args 0) = none := h
  simp only [Fails, up, wp_bind, wp_arg, wp_process, wp_holding, hget, sdUpDown]
  split
  · exact ⟨trivial, _, ‹_›⟩
  · exact ⟨rfl, rfl⟩

theorem close_fails (h : ∀ κ, k.lookup p κ (c.args 0) = none) : Fails c k (close c p) := by
  simp only [Fails, close, wp_bind, wp_arg, wp_process]
  split
  · exact ⟨trivial, _, ‹_›⟩
  cases hc : (k.procs p).close (c.args 0) with
  | none => exact ⟨rfl, rfl⟩
  | some proc =>
    obtain ⟨κ, i, o, hdes, ho, -⟩ := Process.close_eq_some hc
    have hsome : k.lookup p κ (c.args 0) = some o :=
      (Table.get_eq_some κ.isTag).mpr ⟨i, hdes, ho⟩
    rw [h κ] at hsome
    cases hsome

theorem wait_fails (h : k.lookup p .pd (c.args 0) = none) : Fails c k (wait c p) := by
  simp only [Fails, wait, wp_bind, wp_arg, wp_processWait, h]
  split
  · exact ⟨trivial, _, ‹_›⟩
  split
  · exact ⟨trivial, _, ‹_›⟩
  · exact ⟨trivial, trivial⟩

/-- A call on a descriptor that names nothing. -/
theorem sysHandler_fails {κ : Kind} (huse : c.uses κ)
    (h : ∀ κ, c.uses κ → k.lookup p κ (c.args 0) = none) : Fails c k (sysHandler g c p) := by
  have outer : ∀ {n : Nat} {x : Kern Word}, c.num = BitVec.ofNat 32 n → n < 14 →
      handler g c p n = x → Fails c (k.took (.pcb p)) x → Fails c k (sysHandler g c p) := by
    intro n x hnum hlt hx hf
    have hn : c.num.toNat = n := by
      rw [hnum, BitVec.toNat_ofNat]
      omega
    rw [Fails, wp_sysHandler (by omega), hn, hx]
    simpa only [Fails, gave_procs, took_procs] using hf
  -- `close` is for descriptors of every kind
  have closed : c.num = 6#32 → ∀ κ, k.lookup p κ (c.args 0) = none := by
    intro hn κ
    cases κ with
    | fd => exact h .fd (.inr (.inr (.inr (.inr hn))))
    | pd => exact h .pd (.inr hn)
    | sd => exact h .sd (.inr (.inr hn))
  cases κ with
  | fd =>
    rcases huse with hn | hn | hn | hn | hn
    · exact outer hn (by decide) rfl (write_fails (h .fd (.inl hn)))
    · exact outer hn (by decide) rfl (len_fails (h .fd (.inr (.inl hn))))
    · exact outer hn (by decide) rfl (read_fails (h .fd (.inr (.inr (.inl hn)))))
    · exact outer hn (by decide) rfl (seek_fails (h .fd (.inr (.inr (.inr (.inl hn))))))
    · exact outer hn (by decide) rfl (close_fails (closed hn))
  | pd =>
    rcases huse with hn | hn
    · exact outer hn (by decide) rfl (wait_fails (h .pd (.inl hn)))
    · exact outer hn (by decide) rfl (close_fails (closed hn))
  | sd =>
    rcases huse with hn | hn | hn
    · exact outer hn (by decide) rfl (up_fails (h .sd (.inl hn)))
    · exact outer hn (by decide) rfl (up_fails (h .sd (.inr (.inl hn))))
    · exact outer hn (by decide) rfl (close_fails (closed hn))

/-! ## Operations on what is there

The other half of what a call does: not only what it leaves alone if it fails, but that it
succeeds where it can. A call may also not come back, where a page of the user's is refused or
where it sleeps, and the clauses say which of these are possible. -/

/-- A handler, where nothing but the processes matters. -/
theorem Call.served {n : Nat} {Q : Word → (Nat → Process) → Prop} {E : Leave → Prop}
    (hn : c.num = BitVec.ofNat 32 n) (hlt : n < 14)
    (h : wp (handler g c p n) (fun r k' => Q r k'.procs) (fun l _ => E l) (k.took (.pcb p))) :
    wp (sysHandler g c p) (fun r k' => Q r k'.procs) (fun l _ => E l) k := by
  have hnum : c.num.toNat = n := by
    rw [hn, BitVec.toNat_ofNat]
    omega
  rw [wp_sysHandler (by omega), hnum]
  exact h

/-- `fork` comes back, with `-1` exactly if there is no slot for the child. -/
theorem fork_serves (hn : c.num = 2#32) :
    wp (sysHandler g c p) (fun r _ => r = failed ↔ ∀ i, (k.procs p).pdt i ≠ none)
      (fun _ _ => False) k := by
  apply Call.served (n := 2) (Q := fun r _ => r = failed ↔ ∀ i, (k.procs p).pdt i ≠ none) hn
    (by decide)
  simp only [handler, fork, wp_holding, setPd, wp_bind, wp_process, took_procs]
  cases hfree : (k.procs p).pdt.free with
  | none => exact iff_of_true rfl (Table.free_eq_none.mp hfree)
  | some i =>
    simp only [forkChild, wp_bind, wp_fresh, wp_take, wp_pure, wp_process, wp_setProcess,
      wp_release, wp_setChild]
    exact iff_of_false (name_ne_failed isTag_pd i) (Table.not_full hfree)

/-- So does `sem`, which reads its argument only if there is a slot. -/
theorem sem_serves (hn : c.num = 3#32) :
    wp (sysHandler g c p) (fun r _ => r = failed ↔ ∀ i, (k.procs p).sdt i ≠ none)
      (fun l _ => l = .killed ∧ (∃ i, (k.procs p).sdt i = none) ∧ c.refusesOne (argBytes c 0))
      k := by
  apply Call.served (n := 3) (Q := fun r _ => r = failed ↔ ∀ i, (k.procs p).sdt i ≠ none) hn
    (by decide)
  simp only [handler, sem, setSd, wp_bind, wp_process, took_procs]
  cases hfree : (k.procs p).sdt.free with
  | none => exact iff_of_true rfl (Table.free_eq_none.mp hfree)
  | some i =>
    simp only [wp_bind, wp_arg, wp_fresh, wp_take, wp_pure, wp_process, wp_setProcess, wp_release]
    split
    · exact ⟨trivial, ⟨i, (Table.free_eq_some.mp hfree).1⟩, ‹_›⟩
    · exact iff_of_false (name_ne_failed isTag_sd i) (Table.not_full hfree)

/-- `open` gives `-1` exactly if the file is not found or has no slot. -/
theorem open_serves (hn : c.num = 10#32) :
    wp (sysHandler g c p)
      (fun r _ => r = failed ↔
        c.opened (k.procs p).cd = none ∨ ∀ i, (k.procs p).fdt i ≠ none)
      (fun l _ => l = .killed ∧
        (c.refusesOne (argBytes c 0) ∨ c.refusesOne (strBytes c (c.args 0)))) k := by
  apply Call.served (n := 10)
    (Q := fun r _ => r = failed ↔ c.opened (k.procs p).cd = none ∨ ∀ i, (k.procs p).fdt i ≠ none)
    hn (by decide)
  simp only [handler, open_, wp_bind, wp_process, wp_holding, wp_arg, wp_openFile, took_procs]
  split
  · exact ⟨trivial, .inl ‹_›⟩
  split
  · exact ⟨trivial, .inr ‹_›⟩
  cases hnode : c.opened (k.procs p).cd with
  | none => exact iff_of_true rfl (.inl rfl)
  | some node =>
    simp only [wp_bind, wp_holding, setFd, wp_process, took_procs, tookNode_procs]
    cases hfree : (k.procs p).fdt.free with
    | none => exact iff_of_true rfl (.inr (Table.free_eq_none.mp hfree))
    | some i =>
      simp only [wp_bind, wp_fresh, wp_holding, wp_setFile, wp_take, wp_pure, wp_process,
        wp_setProcess, wp_release]
      refine iff_of_false (name_ne_failed isTag_fd i) ?_
      rintro (hno | hfull)
      · cases hno
      · exact Table.not_full hfree hfull

theorem Table.close_name {t : Table} {tag : Word} (htag : IsTag tag) {i : Fin 10} {o : Nat}
    (h : t i = some o) : t.close (name tag i) = some (t.put i none) := by
  have hlt : (name tag i &&& numMask).toNat < 10 := by
    rw [name_index htag]
    exact i.isLt
  have hslot : (⟨_, hlt⟩ : Fin 10) = i := Fin.ext (name_index htag i)
  unfold Table.close
  rw [dif_pos hlt, hslot, if_neg (by rw [h]; simp)]

theorem Process.close_name {proc : Process} {κ : Kind} {i : Fin 10} {o : Nat}
    (h : proc.table κ i = some o) :
    proc.close (name κ.tag i) = some (proc.putSlot κ i none) := by
  unfold Process.close
  rw [name_type κ.isTag]
  cases κ with
  | fd =>
    have hclose : proc.fdt.close (name typeFd i) = _ := Table.close_name isTag_fd h
    rw [if_pos (by decide), Kind.tag, hclose]
    rfl
  | pd =>
    have hclose : proc.pdt.close (name typePd i) = _ := Table.close_name isTag_pd h
    rw [if_neg (by decide), if_pos (by decide), Kind.tag, hclose]
    rfl
  | sd =>
    have hclose : proc.sdt.close (name typeSd i) = _ := Table.close_name isTag_sd h
    rw [if_neg (by decide), if_neg (by decide), if_pos (by decide), Kind.tag, hclose]
    rfl

/-- `close` of a slot in use empties it. -/
theorem close_serves (hn : c.num = 6#32) {κ : Kind} {i : Fin 10} {o : Nat}
    (hdes : c.args 0 = name κ.tag i) (ho : (k.procs p).table κ i = some o) :
    wp (sysHandler g c p)
      (fun r k' => r = 0#32 ∧
        k'.procs = Function.update k.procs p ((k.procs p).putSlot κ i none))
      (fun l _ => l = .killed ∧ c.refusesOne (argBytes c 0)) k := by
  apply Call.served (n := 6) (Q := fun r procs => r = 0#32 ∧
    procs = Function.update k.procs p ((k.procs p).putSlot κ i none)) hn (by decide)
  simp only [handler, close, wp_bind, wp_arg, wp_process, took_procs]
  split
  · exact ⟨trivial, ‹_›⟩
  · rw [hdes, Process.close_name ho]
    exact ⟨rfl, rfl⟩

/-- `wait` for a child sleeps until the child has exited, and then empties the slot. -/
theorem wait_serves (hn : c.num = 8#32) {i : Fin 10} {o : Nat}
    (hdes : c.args 0 = name typePd i) (ho : (k.procs p).pdt i = some o) :
    wp (sysHandler g c p)
      (fun r k' => r = 0#32 ∧
        k'.procs = Function.update k.procs p ((k.procs p).putSlot .pd i none))
      (fun l _ => l = .waits ∧ k.status (k.child o) = none ∨
        l = .killed ∧ (c.refusesOne (argBytes c 0) ∨ c.refusesOne (argBytes c 1) ∨
          c.refusesOne (span (c.args 1) 4))) k := by
  apply Call.served (n := 8) (Q := fun r procs => r = 0#32 ∧
    procs = Function.update k.procs p ((k.procs p).putSlot .pd i none)) hn (by decide)
  simp only [handler, wait, wp_bind, wp_arg, wp_processWait]
  split
  · exact .inr ⟨trivial, .inl ‹_›⟩
  split
  · exact .inr ⟨trivial, .inr (.inl ‹_›)⟩
  have hlookup : (k.took (.pcb p)).lookup p .pd (c.args 0) = some o :=
    (Table.get_eq_some isTag_pd).mpr ⟨i, hdes, ho⟩
  rw [hlookup]
  simp only [took_status]
  have hchild : (k.took (.pcb p)).child = k.child := rfl
  rw [hchild]
  cases hst : k.status (k.child o) with
  | none => exact .inl ⟨trivial, rfl⟩
  | some v =>
    simp only
    split
    · exact .inr ⟨trivial, .inr (.inr ‹_›)⟩
    · exact ⟨i, hdes, ho, trivial, rfl⟩

/-- What `exec` accesses for a program: the strings again, the segments, and the argument block. -/
def Image.accessed (image : Image) (g : Config) (c : Call) : List Word :=
  c.argv.flatMap (strBytes c) ++
    (image.segments.flatMap (fun s => s.bytes s.filesize.toNat) ++
      (span (argBlock g (BitVec.ofNat 32 (argSize c))) (argSize c) ++
        span (argBlock g (BitVec.ofNat 32 (argSize c)) - 8#32) 8))

/-- `exec` fails if the file is no program, and starts it if nothing is refused. -/
theorem exec_serves {n : Nat} :
    wp (exec g c p n)
      (fun r k' => r = failed ∧ c.image n = none ∧ ¬c.refusesOne (argvBytes c) ∧ k'.procs = k.procs)
      (fun l k' => l = .killed ∧ (c.refusesOne (argvBytes c) ∨
          ∃ image, c.image n = some image ∧ c.refusesOne (image.accessed g c)) ∨
        ∃ image, c.image n = some image ∧
          l = .user image.entry (argBlock g (BitVec.ofNat 32 (argSize c)) - 8#32) ∧
          k'.procs = Function.update k.procs p (k.procs p).reset ∧
          ¬c.refusesOne (argvBytes c) ∧ ¬c.refusesOne (image.accessed g c)) k := by
  simp only [exec, wp_bind, wp_touchAll, wp_holding, wp_pure]
  split
  · exact .inl ⟨trivial, .inl ‹_›⟩
  rename_i hargv
  cases himage : c.image n with
  | none => exact ⟨rfl, rfl, hargv, rfl⟩
  | some image =>
    simp only [wp_bind, wp_touchAll, wp_process, wp_setProcess, wp_holding, wp_storeAll, wp_release,
      wp_throw]
    have hall : ∀ {as bs cs ds : List Word}, c.refusesOne (as ++ (bs ++ (cs ++ ds))) ↔
        c.refusesOne as ∨ c.refusesOne bs ∨ c.refusesOne cs ∨ c.refusesOne ds := by
      intro as bs cs ds
      rw [refusesOne_append, refusesOne_append, refusesOne_append]
    split
    · exact .inl ⟨trivial, .inr ⟨image, rfl, hall.mpr (.inl ‹_›)⟩⟩
    split
    · exact .inl ⟨trivial, .inr ⟨image, rfl, hall.mpr (.inr (.inl ‹_›))⟩⟩
    split
    · exact .inl ⟨trivial, .inr ⟨image, rfl, hall.mpr (.inr (.inr (.inl ‹_›)))⟩⟩
    split
    · exact .inl ⟨trivial, .inr ⟨image, rfl, hall.mpr (.inr (.inr (.inr ‹_›)))⟩⟩
    · refine .inr ⟨image, rfl, rfl, rfl, hargv, fun h => ?_⟩
      rcases hall.mp h with h | h | h | h <;> contradiction

/-- `execl` gives `-1` exactly if there is no such program; a program that is there replaces that
of the caller, who loses his semaphores. -/
theorem execl_serves (hn : c.num = 9#32) :
    wp (sysHandler g c p)
      (fun r k' => r = failed ∧ c.opened (k.procs p).cd >>= c.image = none ∧ k'.procs = k.procs)
      (fun l k' => l = .killed ∧ (∃ a, c.refused a = true) ∨
        ∃ image esp, c.opened (k.procs p).cd >>= c.image = some image ∧
          l = .user image.entry esp ∧ k'.procs = Function.update k.procs p (k.procs p).reset)
      k := by
  have denied : ∀ {as : List Word}, c.refusesOne as → ∃ a, c.refused a = true := by
    rintro as ⟨a, -, ha⟩
    exact ⟨a, ha⟩
  have hnum : c.num.toNat = 9 := by rw [hn]; rfl
  rw [wp_sysHandler (by omega), hnum]
  simp only [handler, execl, wp_bind, wp_process, wp_holding, wp_arg, wp_openFile, took_procs]
  split
  · exact .inl ⟨trivial, denied ‹_›⟩
  split
  · exact .inl ⟨trivial, denied ‹_›⟩
  cases hnode : c.opened (k.procs p).cd with
  | none => exact ⟨rfl, rfl, rfl⟩
  | some node =>
    simp only [wp_bind, wp_release, wp_pure]
    refine wp_mono (exec_serves (n := node)) (fun r k' h => ?_) fun l k' h => ?_
    · exact ⟨h.1, h.2.1, h.2.2.2.trans (tookNode_procs (some node))⟩
    · rcases h with ⟨hl, hno⟩ | ⟨image, himage, hl, hk, -⟩
      · rcases hno with h | ⟨_, _, h⟩
        · exact .inl ⟨hl, denied h⟩
        · exact .inl ⟨hl, denied h⟩
      · refine .inr ⟨image, _, himage, hl, ?_⟩
        rw [hk, tookNode_procs]
        rfl

/-- A call of a program whose memory is all there; the only file has 100 bytes. -/
def plainCall (num : Word) (args : Nat → Word) : Call where
  num := num
  argp := 0xfebfff00
  args := args
  refused _ := false
  strlen _ := 0
  argv := []
  search := [.file 5]
  found := true
  image _ := none
  size _ := 100

theorem plainCall_allowed {num : Word} {args : Nat → Word} {as : List Word} :
    ¬(plainCall num args).refusesOne as := by
  rintro ⟨a, -, ha⟩
  cases ha

end OsKernel.Sys
