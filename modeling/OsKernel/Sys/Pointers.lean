import OsKernel.Sys.Buffers
import OsKernel.Sys.Tables

/-!
# The pointers of `read` and `wait`

Two system calls store through an address that the user gives. `read` checks the range of its
buffer; `wait` hands its pointer on as it is. The other calls store nothing at an address of
the user's; `execl` stores where the program file says.

What there is to say about `stores` comes in the two versions that one needs: what a call that must not
store keeps (`StoresNothing`), which is proved for all calls but three by going through the
handlers, and how `wait` and `read` end (`wp_wait`, `wp_read`), which is exact. `Checked` is
then what one asks of a call, and `Guarded` a condition on the state before it; that they are
the same is the result.

The condition has two parts because there are two ways past the check. `wait` has none. `read`
has `check_range`, and that is right unless an APIC is on the last page of memory; there its
test for the end of the page wraps around, and lets everything above through. No machine has
an APIC there, and `guarded_iff` says what remains on a machine that does not.

What the descriptor names matters for `wait` as well: one that names nothing is turned down
before the pointer is looked at.
-/

set_option autoImplicit false

namespace OsKernel.Sys

open Lib Prog Buffers

variable {g : Config} {c : Call} {p : Nat} {k : Kernel}

/-! ## Calls that store nothing

Most calls store nothing to user memory, and nearly all of those change no file. The statement is
about every way out of the call, so it cannot be read off what the call returns. -/

/-- No store, however the call ends. -/
def StoresNothing (k : Kernel) (x : Kern Word) : Prop :=
  wp x (fun _ k' => k'.stores = k.stores) (fun _ k' => k'.stores = k.stores) k

/-- No store and no file changed, however the call ends. -/
def Still (k : Kernel) (x : Kern Word) : Prop :=
  wp x (fun _ k' => k'.stores = k.stores ∧ k'.files = k.files)
    (fun _ k' => k'.stores = k.stores ∧ k'.files = k.files) k

theorem Still.stores {x : Kern Word} (h : Still k x) : StoresNothing k x :=
  wp_mono h (fun _ _ h => h.1) fun _ _ h => h.1

theorem exit_still : Still k (exit c p) := by
  simp only [Still, exit, wp_bind, wp_arg, wp_setStatus, wp_release, wp_stop]
  split <;> exact ⟨rfl, rfl⟩

theorem shutdown_still : Still k (shutdown p) := by
  simp only [Still, shutdown, wp_bind, wp_release, wp_stop]
  exact ⟨rfl, rfl⟩

theorem fdWrite_still (o : Option Nat) (buffer len : Word) :
    Still k (fdWrite c p o buffer len) := by
  cases o with
  | none => exact ⟨rfl, rfl⟩
  | some o =>
    simp only [Still, fdWrite, wp_bind, wp_file]
    split <;> simp

theorem write_still : Still k (write g c p) := by
  have hfd := fdWrite_still (c := c) (p := p)
    (k := k.took (.fd ((k.procs p).fdt.get typeFd (c.args 0))))
    ((k.procs p).fdt.get typeFd (c.args 0)) (c.args 1) (c.args 2)
  simp only [Still, write, wp_bind, wp_arg, wp_ite, wp_pure, wp_process, wp_holding]
  split
  · exact ⟨rfl, rfl⟩
  split
  · exact ⟨rfl, rfl⟩
  split
  · exact ⟨trivial, trivial⟩
  split
  · exact ⟨rfl, rfl⟩
  · exact hfd

theorem fork_still : Still k (fork p) := by
  simp only [Still, fork, wp_holding, setPd, wp_bind, wp_process, took_procs]
  cases (k.procs p).pdt.free with
  | none => exact ⟨rfl, rfl⟩
  | some i =>
    simp only [forkChild, wp_bind, wp_fresh, wp_take, wp_pure, wp_process, wp_setProcess,
      wp_release, wp_setChild]
    exact ⟨rfl, rfl⟩

theorem sem_still : Still k (sem c p) := by
  simp only [Still, sem, setSd, wp_bind, wp_process]
  cases (k.procs p).sdt.free with
  | none => exact ⟨rfl, rfl⟩
  | some i =>
    simp only [wp_bind, wp_arg, wp_fresh, wp_take, wp_pure, wp_process, wp_setProcess, wp_release]
    split <;> exact ⟨rfl, rfl⟩

theorem up_still : Still k (up c p) := by
  simp only [Still, up, wp_bind, wp_arg, wp_process, wp_holding, sdUpDown, wp_pure]
  split <;> exact ⟨rfl, rfl⟩

theorem close_still : Still k (close c p) := by
  simp only [Still, close, wp_bind, wp_arg, wp_process]
  split
  · exact ⟨rfl, rfl⟩
  · cases (k.procs p).close (c.args 0) <;> exact ⟨rfl, rfl⟩

theorem open_stores : StoresNothing k (open_ c p) := by
  simp only [StoresNothing, open_, wp_bind, wp_process, wp_holding, wp_arg, wp_openFile]
  split
  · rfl
  split
  · rfl
  cases c.opened (k.procs p).cd with
  | none => rfl
  | some node =>
    simp only [wp_bind, wp_holding, setFd, wp_process, took_procs, tookNode_procs]
    cases (k.procs p).fdt.free with
    | none => rfl
    | some i =>
      simp only [wp_bind, wp_fresh, wp_holding, wp_setFile, wp_take, wp_pure, wp_process,
        wp_setProcess, wp_release]
      simp only [gave_stores, setProc_stores, took_stores, setFile_stores, bumped_stores,
        tookNode_stores]

theorem len_still : Still k (len c p) := by
  simp only [Still, len, wp_bind, wp_arg, wp_process, wp_holding]
  split
  · exact ⟨rfl, rfl⟩
  · cases (k.procs p).fdt.get typeFd (c.args 0) with
    | none => exact ⟨rfl, rfl⟩
    | some o =>
      simp only [fdLen, wp_bind, wp_file]
      split <;> exact ⟨rfl, rfl⟩

theorem seek_stores : StoresNothing k (seek c p) := by
  simp only [StoresNothing, seek, wp_bind, wp_arg, wp_process, wp_holding]
  split
  · rfl
  split
  · rfl
  · cases (k.procs p).fdt.get typeFd (c.args 0) with
    | none => rfl
    | some o =>
      simp only [fdSeek, wp_bind, wp_file]
      split <;> rfl

/-- The calls other than `wait`, `execl` and `read`. -/
theorem handler_stores {n : Nat} (h8 : n ≠ 8) (h9 : n ≠ 9) (h12 : n ≠ 12) :
    StoresNothing k (handler g c p n) := by
  unfold handler
  split
  · exact exit_still.stores
  · exact write_still.stores
  · exact fork_still.stores
  · exact sem_still.stores
  · exact up_still.stores
  · exact up_still.stores
  · exact close_still.stores
  · exact shutdown_still.stores
  · exact absurd rfl h8
  · exact absurd rfl h9
  · exact open_stores
  · exact len_still.stores
  · exact absurd rfl h12
  · exact seek_stores
  · rfl

/-! ## The two that store -/

/-- The first `n` arguments can be read. -/
def Call.readable (c : Call) (n : Nat) : Prop := ∀ i < n, ¬c.refusesOne (argBytes c i)

/-- How `wait` ends. -/
theorem wp_wait : wp (wait c p)
    (fun r k' => (r = failed ∧ k' = k ∧ k.lookup p .pd (c.args 0) = none) ∨
      ∃ o v, c.readable 2 ∧ k.lookup p .pd (c.args 0) = some o ∧
        k.status (k.child o) = some v ∧ r = 0#32 ∧
        k'.stores = (span (c.args 1) 4).reverse ++ k.stores)
    (fun l k' => (¬c.readable 2 ∧ k'.stores = k.stores) ∨
      ∃ o, c.readable 2 ∧ k.lookup p .pd (c.args 0) = some o ∧
        ((k.status (k.child o) = none ∧ l = .waits ∧ k'.stores = k.stores) ∨
          ∃ v, k.status (k.child o) = some v ∧ c.refusesOne (span (c.args 1) 4) ∧
            k'.stores = (c.before (span (c.args 1) 4)).reverse ++ k.stores)) k := by
  simp only [wait, wp_bind, wp_arg, wp_processWait]
  split
  · rename_i h0
    exact .inl ⟨fun h => h 0 (by decide) h0, rfl⟩
  split
  · rename_i h1
    exact .inl ⟨fun h => h 1 (by decide) h1, rfl⟩
  rename_i h0 h1
  have hread : c.readable 2 := fun i hi => by
    rcases (by omega : i = 0 ∨ i = 1) with rfl | rfl
    · exact h0
    · exact h1
  cases hslot : k.lookup p .pd (c.args 0) with
  | none => exact .inl ⟨trivial, trivial, rfl⟩
  | some o =>
    simp only
    cases hst : k.status (k.child o) with
    | none => exact .inr ⟨o, hread, rfl, .inl ⟨hst, trivial, trivial⟩⟩
    | some v =>
      simp only
      split
      · rename_i hrefused
        exact .inr ⟨o, hread, rfl, .inr ⟨v, hst, hrefused, rfl⟩⟩
      · obtain ⟨i, hdes, hi⟩ := (Table.get_eq_some isTag_pd).mp hslot
        exact ⟨i, hdes, hi, .inr ⟨o, v, hread, rfl, hst, trivial, rfl⟩⟩

/-- The descriptor `des` is an open file that has not been read to its end. -/
def Reads (c : Call) (p : Nat) (k : Kernel) (cnt : Nat) : Prop :=
  ∃ o node offset, k.lookup p .fd (c.args 0) = some o ∧ k.files o = .file node offset ∧
    ¬c.size node < offset ∧ cnt = delivered (c.size node) offset (c.args 2)

/-- How `read` ends. -/
theorem wp_read : wp (read g c p)
    (fun r k' => (r = failed ∧ k' = k ∧
        (checkRange g (c.args 1) (c.args 2) = false ∨ ∀ cnt, ¬Reads c p k cnt)) ∨
      ∃ cnt, c.readable 3 ∧ checkRange g (c.args 1) (c.args 2) = true ∧ Reads c p k cnt ∧
        r = BitVec.ofNat 32 cnt ∧ k'.stores = (span (c.args 1) cnt).reverse ++ k.stores)
    (fun l k' => l = .killed ∧ ((¬c.readable 3 ∧ k'.stores = k.stores) ∨
      ∃ cnt, c.readable 3 ∧ checkRange g (c.args 1) (c.args 2) = true ∧ Reads c p k cnt ∧
        k'.stores = (c.before (span (c.args 1) cnt)).reverse ++ k.stores)) k := by
  simp only [read, wp_bind, wp_arg, wp_ite, wp_pure, wp_process, wp_holding]
  split
  · rename_i h1
    exact ⟨trivial, .inl ⟨fun h => h 1 (by decide) h1, rfl⟩⟩
  split
  · rename_i h2
    exact ⟨trivial, .inl ⟨fun h => h 2 (by decide) h2, rfl⟩⟩
  split
  · rename_i hno
    exact .inl ⟨trivial, trivial, .inl (by simpa using hno)⟩
  rename_i hok
  have hok' : checkRange g (c.args 1) (c.args 2) = true := by simpa using hok
  split
  · rename_i h0
    exact ⟨trivial, .inl ⟨fun h => h 0 (by decide) h0, rfl⟩⟩
  rename_i h1 h2 h0
  -- the arguments are loaded in the order 1, 2, 0
  have hread : c.readable 3 := fun i hi => by
    rcases (by omega : i = 0 ∨ i = 1 ∨ i = 2) with rfl | rfl | rfl
    · exact h0
    · exact h1
    · exact h2
  have hlookup : k.lookup p .fd (c.args 0) = (k.procs p).fdt.get typeFd (c.args 0) := rfl
  have hnothing : (∀ cnt, ¬Reads c p k cnt) →
      (k.took (.fd ((k.procs p).fdt.get typeFd (c.args 0)))).gave
          (.fd ((k.procs p).fdt.get typeFd (c.args 0))) = k ∧
        (checkRange g (c.args 1) (c.args 2) = false ∨ ∀ cnt, ¬Reads c p k cnt) :=
    fun h => ⟨took_gave _, .inr h⟩
  cases ho : (k.procs p).fdt.get typeFd (c.args 0) with
  | none =>
    rw [ho] at hlookup hnothing
    refine .inl ⟨rfl, hnothing ?_⟩
    rintro cnt ⟨o, node, offset, ho', -⟩
    rw [hlookup] at ho'
    cases ho'
  | some o =>
    rw [ho] at hlookup hnothing
    simp only [fdRead, wp_bind, wp_file, took_files]
    cases hf : k.files o with
    | file node offset =>
      simp only [wp_ite, wp_pure, wp_bind, wp_storeAll, wp_setFile]
      have hreads : ¬c.size node < offset →
          Reads c p k (delivered (c.size node) offset (c.args 2)) := fun h =>
        ⟨o, node, offset, hlookup, hf, h, rfl⟩
      split
      · rename_i hlt
        refine .inl ⟨trivial, hnothing ?_⟩
        rintro cnt ⟨o', node', offset', ho', hf', hge, -⟩
        rw [hlookup] at ho'
        cases ho'
        rw [hf] at hf'
        cases hf'
        exact hge hlt
      · rename_i hge
        split
        · exact ⟨trivial, .inr ⟨_, hread, hok', hreads hge, rfl⟩⟩
        · exact .inr ⟨_, hread, hok', hreads hge, rfl, rfl⟩
    | stdIn | stdOut | stdErr =>
      refine .inl ⟨rfl, hnothing ?_⟩
      rintro cnt ⟨o', node', offset', ho', hf', -⟩
      rw [hlookup] at ho'
      cases ho'
      rw [hf] at hf'
      cases hf'

/-! ## Every call

`Checked` is what one call should do, and `Guarded` the condition: that no bad pointer gets past
the handler. The first says what has been stored to and what has not changed, and the second only
what the arguments are and what the range check says of them. -/

/-- One of the `n` addresses from `b` on is one that the user must not have. -/
def Bad (g : Config) (b : Word) (n : Nat) : Prop := ∃ i < n, Protected g (b.toNat + i)

/-- What was stored to since is the user's. -/
def StoresUser (g : Config) (k k' : Kernel) : Prop :=
  ∃ new, k'.stores = new ++ k.stores ∧ ∀ a ∈ new, ¬Protected g a.toNat

/-- The range that a call has the kernel store to, and how many arguments it reads. -/
def Call.pointer (c : Call) : Option (Word × Nat × Nat) :=
  if c.num = 12#32 then some (c.args 1, (c.args 2).toNat, 3)
  else if c.num = 8#32 then some (c.args 1, 4, 2)
  else none

/-- No store outside of the user's memory is made through a pointer of the user, and a call with
such a pointer fails and changes nothing. -/
structure Checked (g : Config) (c : Call) (p : Nat) (k : Kernel) : Prop where
  stores : c.num ≠ 9#32 →
    wp (sysHandler g c p) (fun _ k' => StoresUser g k k') (fun _ k' => StoresUser g k k') k
  refused : ∀ b n args, c.pointer = some (b, n, args) → Bad g b n → c.readable args →
    wp (sysHandler g c p) (fun r k' => r = failed ∧ k' = k) (fun _ _ => False) k

/-- No bad pointer gets past the handler. -/
structure Guarded (g : Config) (c : Call) (p : Nat) (k : Kernel) : Prop where
  wait : c.num = 8#32 → c.readable 2 → Bad g (c.args 1) 4 → k.lookup p .pd (c.args 0) = none
  read : c.num = 12#32 → c.readable 3 → Bad g (c.args 1) (c.args 2).toNat →
    checkRange g (c.args 1) (c.args 2) = true → ∀ cnt, ¬Reads c p k cnt

theorem StoresUser.same {k' : Kernel} (h : k'.stores = k.stores) : StoresUser g k k' :=
  ⟨[], h, fun a ha => by cases ha⟩

/-- Stores to a range without a bad address. -/
theorem StoresUser.range {k' : Kernel} {b : Word} {n m : Nat} {as : List Word}
    (hk : k'.stores = as.reverse ++ k.stores) (has : ∀ a ∈ as, a ∈ span b m) (hle : m ≤ n)
    (hbad : ¬Bad g b n) : StoresUser g k k' := by
  refine ⟨as.reverse, hk, fun a ha hp => ?_⟩
  obtain ⟨i, hi, rfl⟩ := mem_span.mp (has a (List.mem_reverse.mp ha))
  have hfine : ¬Protected g (b.toNat + i) := fun h => hbad ⟨i, Nat.lt_of_lt_of_le hi hle, h⟩
  have hlt : b.toNat + i < 2 ^ 32 := by
    by_contra hge
    exact hfine (.inr (.inl (Nat.not_lt.mp hge)))
  have hsum : (b + BitVec.ofNat 32 i).toNat = b.toNat + i := by
    rw [BitVec.toNat_add, BitVec.toNat_ofNat]
    omega
  rw [hsum] at hp
  exact hfine hp

theorem mem_before {as : List Word} {a : Word} (h : a ∈ c.before as) : a ∈ as :=
  (List.takeWhile_subset _) h

theorem delivered_le (size offset n : Word) : delivered size offset n ≤ n.toNat :=
  Nat.min_le_left ..

theorem Guarded.stores (G : Guarded g c p k) (h9 : c.num ≠ 9#32) :
    wp (sysHandler g c p) (fun _ k' => StoresUser g k k') (fun _ k' => StoresUser g k k') k := by
  by_cases hlt : c.num.toNat < 14
  case neg =>
    have hge : 14#32 ≤ c.num := by
      rw [BitVec.le_def]
      exact Nat.not_lt.mp hlt
    unfold sysHandler
    rw [if_pos hge]
    exact .same rfl
  rw [wp_sysHandler hlt]
  by_cases h8 : c.num = 8#32
  · rw [h8]
    refine wp_mono (wp_wait (k := k.took (.pcb p))) (fun r k' h => ?_) fun l k' h => ?_
    · rcases h with ⟨-, rfl, -⟩ | ⟨o, v, hread, ho, -, -, hk⟩
      · exact .same rfl
      · refine .range (n := 4) hk (fun a ha => ha) (Nat.le_refl 4) fun hbad => ?_
        have hnone := G.wait h8 hread hbad
        exact absurd (hnone.symm.trans ho) nofun
    · rcases h with ⟨-, hk⟩ | ⟨o, hread, ho, ⟨-, -, hk⟩ | ⟨v, -, -, hk⟩⟩
      · exact .same hk
      · exact .same hk
      · refine .range (n := 4) hk (fun a ha => mem_before ha) (Nat.le_refl 4) fun hbad => ?_
        have hnone := G.wait h8 hread hbad
        exact absurd (hnone.symm.trans ho) nofun
  by_cases h12 : c.num = 12#32
  · rw [h12]
    refine wp_mono (wp_read (k := k.took (.pcb p))) (fun r k' h => ?_) fun l k' h => ?_
    · rcases h with ⟨-, rfl, -⟩ | ⟨cnt, hread, hok, hr, -, hk⟩
      · exact .same rfl
      · obtain ⟨o, node, offset, -, -, -, rfl⟩ := id hr
        exact .range hk (fun a ha => ha) (delivered_le ..) fun hbad => G.read h12 hread hbad hok _ hr
    · rcases h with ⟨-, ⟨-, hk⟩ | ⟨cnt, hread, hok, hr, hk⟩⟩
      · exact .same hk
      · obtain ⟨o, node, offset, -, -, -, rfl⟩ := id hr
        exact .range hk (fun a ha => mem_before ha) (delivered_le ..) fun hbad =>
          G.read h12 hread hbad hok _ hr
  have hnum : ∀ {n : Nat}, c.num ≠ BitVec.ofNat 32 n → c.num.toNat ≠ n := fun hne h =>
    hne (by rw [← h, BitVec.ofNat_toNat, BitVec.setWidth_eq])
  refine wp_mono (handler_stores (k := k.took (.pcb p)) (hnum h8) (hnum h9) (hnum h12))
    (fun _ k' h => .same h) fun _ k' h => .same h

/-- What `wait` and `read` are called with. -/
theorem Call.pointer_cases {b : Word} {n m : Nat} (h : c.pointer = some (b, n, m)) :
    (c.num = 8#32 ∧ b = c.args 1 ∧ n = 4 ∧ m = 2) ∨
      (c.num = 12#32 ∧ b = c.args 1 ∧ n = (c.args 2).toNat ∧ m = 3) := by
  unfold Call.pointer at h
  split at h
  · rename_i h12
    cases h
    exact .inr ⟨h12, rfl, rfl, rfl⟩
  · split at h
    · rename_i h8
      cases h
      exact .inl ⟨h8, rfl, rfl, rfl⟩
    · cases h

theorem Guarded.refused (G : Guarded g c p k) {b : Word} {n m : Nat}
    (hp : c.pointer = some (b, n, m)) (hbad : Bad g b n) (hread : c.readable m) :
    wp (sysHandler g c p) (fun r k' => r = failed ∧ k' = k) (fun _ _ => False) k := by
  obtain ⟨h8, rfl, rfl, rfl⟩ | ⟨h12, rfl, rfl, rfl⟩ := Call.pointer_cases hp
  · have hnone := G.wait h8 hread hbad
    rw [wp_sysHandler (by rw [h8]; decide), h8]
    refine wp_mono (wp_wait (k := k.took (.pcb p))) (fun r k' h => ?_) fun l k' h => ?_
    · rcases h with ⟨hr, rfl, -⟩ | ⟨o, v, -, ho, -⟩
      · exact ⟨hr, took_gave _⟩
      · exact absurd (hnone.symm.trans ho) nofun
    · rcases h with ⟨hno, -⟩ | ⟨o, -, ho, -⟩
      · exact hno hread
      · exact absurd (hnone.symm.trans ho) nofun
  · rw [wp_sysHandler (by rw [h12]; decide), h12]
    refine wp_mono (wp_read (k := k.took (.pcb p))) (fun r k' h => ?_) fun l k' h => ?_
    · rcases h with ⟨hr, rfl, -⟩ | ⟨cnt, -, hok, hreads, -⟩
      · exact ⟨hr, took_gave _⟩
      · exact absurd hreads (G.read h12 hread hbad hok cnt)
    · rcases h with ⟨-, ⟨hno, -⟩ | ⟨cnt, -, hok, hreads, -⟩⟩
      · exact hno hread
      · exact G.read h12 hread hbad hok cnt hreads

/-- A checked length is positive as a signed number, wherever the APICs are. -/
theorem checked_small {b n : Word} (h : checkRange g b n = true) : n.toNat < 2 ^ 31 := by
  have hb := b.isLt
  have hn := n.isLt
  have hc : (0x80000000#32).toNat = 2 ^ 31 := rfl
  unfold checkRange at h
  simp only [Bool.and_eq_true, decide_eq_true_eq, BitVec.le_def, hc, BitVec.toNat_add] at h
  omega

theorem Checked.guarded (C : Checked g c p k) : Guarded g c p k where
  wait h8 hread hbad := by
    have hp : c.pointer = some (c.args 1, 4, 2) := by
      unfold Call.pointer
      rw [h8, if_neg (by decide), if_pos rfl]
    have hC := C.refused _ _ _ hp hbad hread
    rw [wp_sysHandler (by rw [h8]; decide), h8] at hC
    obtain ⟨r, k', -, ⟨hr, -⟩, hw⟩ := wp_returns
      (wp_mono (wp_and hC (wp_wait (k := k.took (.pcb p)))) (fun _ _ h => h) fun _ _ h => h.1)
    rcases hw with ⟨-, -, hnone⟩ | ⟨o, v, -, -, -, hr0, -⟩
    · exact hnone
    · exact absurd (hr0.symm.trans hr) (by decide)
  read h12 hread hbad hok cnt hreads := by
    have hp : c.pointer = some (c.args 1, (c.args 2).toNat, 3) := by
      unfold Call.pointer
      rw [h12, if_pos rfl]
    have hC := C.refused _ _ _ hp hbad hread
    rw [wp_sysHandler (by rw [h12]; decide), h12] at hC
    obtain ⟨r, k', -, ⟨hr, -⟩, hw⟩ := wp_returns
      (wp_mono (wp_and hC (wp_read (k := k.took (.pcb p)))) (fun _ _ h => h) fun _ _ h => h.1)
    rcases hw with ⟨-, -, hno | hno⟩ | ⟨m, -, -, ⟨o, node, offset, -, -, -, rfl⟩, hm, -⟩
    · exact absurd (hok.symm.trans hno) nofun
    · exact hno cnt hreads
    · have hlt := checked_small hok
      have hle := delivered_le (c.size node) offset (c.args 2)
      have heq : r.toNat = delivered (c.size node) offset (c.args 2) := by
        rw [hm, BitVec.toNat_ofNat]
        exact Nat.mod_eq_of_lt (by omega)
      rw [hr] at heq
      have hfailed : failed.toNat = 2 ^ 32 - 1 := rfl
      omega

/-! ## The result -/

/-- A system call keeps a user's pointer off the kernel, exactly if it is no `wait` for a child
with a bad status pointer, and no `read` with a bad buffer that `check_range` lets through. -/
theorem pointers_checked (g : Config) (c : Call) (p : Nat) (k : Kernel) :
    Checked g c p k ↔ Guarded g c p k :=
  ⟨Checked.guarded, fun G => ⟨G.stores, fun _ _ _ => G.refused⟩⟩

/-- With the APICs below the top page it is `wait` alone. -/
theorem guarded_iff (hl : g.localAPIC < 0xfffff000#32) (hi : g.ioAPIC < 0xfffff000#32) :
    Guarded g c p k ↔
      (c.num = 8#32 → c.readable 2 → Bad g (c.args 1) 4 → k.lookup p .pd (c.args 0) = none) := by
  refine ⟨Guarded.wait, fun h => ⟨h, fun _ _ hbad hok => ?_⟩⟩
  rw [protected_refused hl hi hbad] at hok
  cases hok

/-- A process makes a child, and the child exits with 7. -/
def parentRun : List Event :=
  [.call 0 (plainCall 2 fun _ => 0), .call 3 (plainCall 0 fun _ => 7)]

/-- `wait(PD | 0, 0x00100000)`. -/
def waitLow : Call := plainCall 8 fun i => if i = 0 then name typePd 0 else 0x00100000

/-- The parent then waits for it. The exit status is written into the kernel, and the call
succeeds. -/
theorem status_unchecked : ∃ k,
    runs (step ⟨0xfee00000, 0xfec00000⟩) (Kernel.init 2) parentRun = some k ∧
    ¬Checked ⟨0xfee00000, 0xfec00000⟩ waitLow 0 k ∧
    ∃ k', sysHandler ⟨0xfee00000, 0xfec00000⟩ waitLow 0 k = .ok 0 k' ∧
      k'.stores = (span 0x00100000 4).reverse := by
  have heval : (runs (step ⟨0xfee00000, 0xfec00000⟩) (Kernel.init 2) parentRun).any
      (fun k => decide (k.lookup 0 .pd (waitLow.args 0) = some 4 ∧
        k.status (k.child 4) = some 7 ∧ k.stores = [])) = true := by
    decide +kernel
  obtain ⟨k, hk, ht⟩ := (Option.any_eq_true _ _).mp heval
  obtain ⟨hlookup, hstatus, hstores⟩ := of_decide_eq_true ht
  have hread : waitLow.readable 2 := fun i _ => plainCall_allowed
  refine ⟨k, hk, fun C => ?_, ?_⟩
  · have hnone := C.guarded.wait rfl hread ⟨0, by decide, .inl (by decide)⟩
    exact absurd (hnone.symm.trans hlookup) nofun
  · have hrun : wp (sysHandler ⟨0xfee00000, 0xfec00000⟩ waitLow 0)
        (fun r k' => r = 0#32 ∧ k'.stores = (span 0x00100000 4).reverse) (fun _ _ => False) k := by
      rw [wp_sysHandler (by decide)]
      refine wp_mono (wp_wait (k := k.took (.pcb 0))) (fun r k' h => ?_) fun l k' h => ?_
      · rcases h with ⟨-, -, hno⟩ | ⟨o, v, -, -, -, hr, hk'⟩
        · exact absurd (hno.symm.trans hlookup) nofun
        · refine ⟨hr, hk'.trans ?_⟩
          show _ ++ k.stores = _
          rw [hstores]
          exact List.append_nil _
      · rcases h with ⟨hno, -⟩ | ⟨o, -, ho, ⟨hst, -⟩ | ⟨v, -, hno, -⟩⟩
        · exact hno hread
        · cases hlookup.symm.trans ho
          exact absurd (hstatus.symm.trans hst) nofun
        · exact plainCall_allowed hno
    obtain ⟨r, k', hok, rfl, hk'⟩ := wp_returns hrun
    exact ⟨k', hok, hk'⟩

end OsKernel.Sys
