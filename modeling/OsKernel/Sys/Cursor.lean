import OsKernel.Sys.Maps
import OsKernel.Sys.Pointers

/-!
# The cursor of an open file

What `len`, `read` and `seek` do to the object that their descriptor names, and which of their
failures leave it as it was.

A failure is a negative result, and that is the source's own notion: a caller of these
functions has nothing else to go by. With `seek` a result can be negative because it is the
offset that was asked for, and then it is a failure that has moved the cursor. With `read` and
`len` it cannot: the count of a `read` that `check_range` has let through is positive as a
signed number (`count_not_negative`).

A `read` that is ended at an address that it may not store to is neither a success nor a
failure; it does not come back (`Ended`). It has not moved the cursor either, as the offset is
stored last.

The statement is about a descriptor that names an open file. One that names the console, or
nothing, is answered with -1 before there is a cursor, and `Sys/Cursors.lean` has those as
well.
-/

set_option autoImplicit false

namespace OsKernel.Sys

open Lib Prog

variable {g : Config} {c : Call} {p : Nat} {k : Kernel} {o node : Nat} {offset : Word}

/-- The first argument of the call names the open file `o`. -/
structure Call.OnFile (c : Call) (p : Nat) (k : Kernel) (o node : Nat) (offset : Word) : Prop where
  lookup : k.lookup p .fd (c.args 0) = some o
  file : k.files o = .file node offset

namespace Call.OnFile

theorem took (F : c.OnFile p k o node offset) (o' : Obj) : c.OnFile p (k.took o') o node offset :=
  ⟨F.lookup, F.file⟩

theorem get (F : c.OnFile p k o node offset) :
    (k.procs p).fdt.get typeFd (c.args 0) = some o := F.lookup

end Call.OnFile

/-- A call that did not come back was ended at an address that is refused, and no file changed. -/
def Ended (c : Call) (k : Kernel) (l : Leave) (k' : Kernel) : Prop :=
  l = .killed ∧ (∃ a, c.refused a = true) ∧ k'.files = k.files

theorem Ended.of_refuses {as : List Word} (h : c.refusesOne as) {k' : Kernel}
    (hf : k'.files = k.files) : Ended c k .killed k' := by
  obtain ⟨a, -, ha⟩ := h
  exact ⟨rfl, ⟨a, ha⟩, hf⟩

/-- The file has moved its cursor. -/
theorem took_setFile_gave (f : File) (o' : Obj) :
    ((k.took o').setFile o f).gave o' = k.setFile o f :=
  took_gave (k := k.setFile o f) o'

theorem wp_len_file (F : c.OnFile p k o node offset) :
    wp (len c p) (fun r k' => r = c.size node ∧ k' = k) (Ended c k) k := by
  simp only [len, wp_bind, wp_arg, wp_process, wp_holding, F.get, fdLen, wp_file, took_files,
    F.file, wp_pure, took_gave]
  split
  · exact .of_refuses ‹_› rfl
  · exact ⟨trivial, trivial⟩

theorem wp_seek_file (F : c.OnFile p k o node offset) :
    wp (seek c p) (fun r k' => c.readable 2 ∧ r = c.args 1 ∧ k' = k.setFile o (.file node (c.args 1)))
      (fun l k' => ¬c.readable 2 ∧ Ended c k l k') k := by
  simp only [seek, wp_bind, wp_arg, wp_process, wp_holding, F.get, fdSeek, wp_file, took_files,
    F.file, wp_setFile, wp_pure, took_setFile_gave]
  split
  · rename_i h0
    exact ⟨fun h => h 0 (by decide) h0, .of_refuses h0 rfl⟩
  split
  · rename_i h1
    exact ⟨fun h => h 1 (by decide) h1, .of_refuses h1 rfl⟩
  · rename_i h0 h1
    refine ⟨fun i hi => ?_, trivial, trivial⟩
    rcases (by omega : i = 0 ∨ i = 1) with rfl | rfl
    · exact h0
    · exact h1

/-- How far a `read` moves the cursor. -/
def Call.count (c : Call) (node : Nat) (offset : Word) : Nat :=
  delivered (c.size node) offset (c.args 2)

/-- The state after a `read` that delivers something, or nothing at the end of the file. -/
def Kernel.advanced (k : Kernel) (c : Call) (o node : Nat) (offset : Word) : Kernel :=
  (k.stored (span (c.args 1) (c.count node offset))).setFile o
    (.file node (offset + BitVec.ofNat 32 (c.count node offset)))

theorem wp_read_file (F : c.OnFile p k o node offset) :
    wp (read g c p)
      (fun r k' => (r = failed ∧ k' = k ∧
          (checkRange g (c.args 1) (c.args 2) = false ∨ c.size node < offset)) ∨
        (checkRange g (c.args 1) (c.args 2) = true ∧ ¬c.size node < offset ∧
          r = BitVec.ofNat 32 (c.count node offset) ∧ k' = k.advanced c o node offset))
      (Ended c k) k := by
  have hback : ∀ o', ((k.took o').advanced c o node offset).gave o' = k.advanced c o node offset :=
    fun o' => took_gave (k := k.advanced c o node offset) o'
  simp only [read, wp_bind, wp_arg, wp_ite, wp_pure, wp_process, wp_holding, F.get, fdRead, wp_file,
    took_files, F.file, wp_storeAll, wp_setFile, took_gave]
  split
  · exact .of_refuses ‹_› rfl
  split
  · exact .of_refuses ‹_› rfl
  split
  · rename_i hno
    exact .inl ⟨trivial, trivial, .inl (by simpa using hno)⟩
  rename_i hok
  split
  · exact .of_refuses ‹_› rfl
  split
  · rename_i hlt
    exact .inl ⟨trivial, trivial, .inr hlt⟩
  rename_i hge
  split
  · exact .of_refuses ‹_› rfl
  · exact .inr ⟨by simpa using hok, hge, rfl, hback _⟩

/-! ## Failures -/

/-- The count of a `read` is positive as a signed number. -/
theorem count_not_negative (h : checkRange g (c.args 1) (c.args 2) = true) :
    (BitVec.ofNat 32 (c.count node offset)).msb = false := by
  have hlt := checked_small h
  have hle : c.count node offset ≤ (c.args 2).toNat := delivered_le ..
  rw [BitVec.msb_eq_decide, BitVec.toNat_ofNat, decide_eq_false_iff_not]
  omega

/-- A call that fails leaves the open file as it was, exactly if it is not a `seek` to a negative
offset. -/
theorem failure_keeps_cursor (g : Config) (c : Call) (p : Nat) (k : Kernel) (o node : Nat)
    (offset : Word) (hn : c.num = 11#32 ∨ c.num = 12#32 ∨ c.num = 13#32)
    (F : c.OnFile p k o node offset) :
    wp (sysHandler g c p) (fun r k' => r.msb = true → k' = k) (fun _ _ => True) k ↔
      (c.num = 13#32 → c.readable 2 → (c.args 1).msb = true → c.args 1 = offset) := by
  have F' := F.took (.pcb p)
  rcases hn with hn | hn | hn
  · refine iff_of_true ?_ fun h13 => absurd (hn.symm.trans h13) (by decide)
    rw [wp_sysHandler (by rw [hn]; decide), hn]
    refine wp_mono (wp_len_file F') (fun r k' h _ => ?_) fun _ _ _ => trivial
    rw [h.2, took_gave]
  · refine iff_of_true ?_ fun h13 => absurd (hn.symm.trans h13) (by decide)
    rw [wp_sysHandler (by rw [hn]; decide), hn]
    refine wp_mono (wp_read_file F') (fun r k' h hneg => ?_) fun _ _ _ => trivial
    rcases h with ⟨-, rfl, -⟩ | ⟨hok, -, rfl, -⟩
    · exact took_gave _
    · rw [count_not_negative hok] at hneg
      cases hneg
  · rw [wp_sysHandler (by rw [hn]; decide), hn]
    have hseek := wp_seek_file F'
    constructor
    · intro hw _ hread hneg
      obtain ⟨r, k', hr, hk, -, rfl, rfl⟩ :=
        wp_returns (wp_mono (wp_and hw hseek) (fun _ _ h => h) fun _ _ h => h.2.1 hread)
      have hfile := congrFun (congrArg Kernel.files (hk hneg)) o
      have hself : Function.update (k.took (.pcb p)).files o (.file node (c.args 1)) o =
          .file node (c.args 1) := Function.update_self ..
      have hsame : File.file node (c.args 1) = k.files o := hself.symm.trans hfile
      rw [F.file] at hsame
      exact (File.file.inj hsame).2
    · intro hcond
      refine wp_mono hseek (fun r k' h hneg => ?_) fun _ _ _ => trivial
      obtain ⟨hread, rfl, rfl⟩ := h
      rw [hcond rfl hread hneg, took_setFile_gave]
      have hsame : Function.update k.files o (.file node offset) = k.files := by
        rw [← F.file, Function.update_eq_self]
      show { k with files := Function.update k.files o (.file node offset) } = k
      rw [hsame]

/-- `seek(FD | 3, offset)`. -/
def seekCall (offset : Word) : Call :=
  plainCall 13 fun i => if i = 0 then name typeFd 3 else offset

/-- The file is opened and the cursor is at its start. -/
theorem opened_file : ∃ k, runs (step ⟨0xfee00000, 0xfec00000⟩) (Kernel.init 2)
    [.call 0 (plainCall 10 fun _ => 0)] = some k ∧
    ∀ offset, (seekCall offset).OnFile 0 k 3 5 0 := by
  have heval : (runs (step ⟨0xfee00000, 0xfec00000⟩) (Kernel.init 2)
      [.call 0 (plainCall 10 fun _ => 0)]).any
      (fun k => decide (k.lookup 0 .fd (name typeFd 3) = some 3 ∧ k.files 3 = .file 5 0)) = true := by
    decide +kernel
  obtain ⟨k, hk, ht⟩ := (Option.any_eq_true _ _).mp heval
  obtain ⟨hlookup, hfile⟩ := of_decide_eq_true ht
  exact ⟨k, hk, fun offset => ⟨hlookup, hfile⟩⟩

/-- `read(FD | 3, 0x80000000, 10)`. -/
def readCall : Call :=
  plainCall 12 fun i => if i = 0 then name typeFd 3 else if i = 1 then 0x80000000 else 10

/-- The file has 100 bytes. A `read` at 200 fails, and leaves the whole kernel as it was. -/
theorem failure_keeps_cursor_seek : ∃ k, runs (step ⟨0xfee00000, 0xfec00000⟩) (Kernel.init 2)
    [.call 0 (plainCall 10 fun _ => 0), .call 0 (seekCall 200)] = some k ∧
    k.files 3 = .file 5 200 ∧
    sysHandler ⟨0xfee00000, 0xfec00000⟩ readCall 0 k = .ok failed k := by
  have heval : (runs (step ⟨0xfee00000, 0xfec00000⟩) (Kernel.init 2)
      [.call 0 (plainCall 10 fun _ => 0), .call 0 (seekCall 200)]).any
      (fun k => decide (k.lookup 0 .fd (name typeFd 3) = some 3 ∧ k.files 3 = .file 5 200) &&
        test (sysHandler ⟨0xfee00000, 0xfec00000⟩ readCall 0) (fun r _ => r = failed) k) = true := by
    decide +kernel
  obtain ⟨k, hk, ht⟩ := (Option.any_eq_true _ _).mp heval
  obtain ⟨hk₃, hfails⟩ := Bool.and_eq_true_iff.mp ht
  obtain ⟨hlookup, hfile⟩ := of_decide_eq_true hk₃
  have hkeeps := (failure_keeps_cursor ⟨0xfee00000, 0xfec00000⟩ readCall 0 k 3 5 200 (.inr (.inl rfl))
    ⟨hlookup, hfile⟩).mpr fun h13 => absurd h13 (by decide)
  obtain ⟨r, k', hx, hr⟩ := test_iff.mp hfails
  obtain rfl := of_decide_eq_true hr
  have hsame : k' = k := wp_ok hkeeps hx (by decide)
  exact ⟨k, hk, hfile, by rw [hx, hsame]⟩

/-- `seek` to -5 returns -5 and moves the cursor. -/
theorem failed_seek_moves : ∃ k r k', runs (step ⟨0xfee00000, 0xfec00000⟩) (Kernel.init 2)
    [.call 0 (plainCall 10 fun _ => 0)] = some k ∧
    sysHandler ⟨0xfee00000, 0xfec00000⟩ (seekCall 0xfffffffb) 0 k = .ok r k' ∧ r.msb = true ∧
    k.files 3 = .file 5 0 ∧ k'.files 3 = .file 5 0xfffffffb := by
  obtain ⟨k, hk, F⟩ := opened_file
  have hread : (seekCall 0xfffffffb).readable 2 := by
    rintro i - ⟨a, -, ha⟩
    cases ha
  have hw : wp (sysHandler ⟨0xfee00000, 0xfec00000⟩ (seekCall 0xfffffffb) 0)
      (fun r k' => r.msb = true ∧ k'.files 3 = .file 5 0xfffffffb) (fun _ _ => False) k := by
    rw [wp_sysHandler (by decide)]
    refine wp_mono (wp_seek_file ((F 0xfffffffb).took (.pcb 0))) (fun r k' h => ?_)
      fun _ _ h => h.1 hread
    obtain ⟨-, rfl, rfl⟩ := h
    refine ⟨by decide, ?_⟩
    show Function.update k.files 3 (.file 5 ((seekCall 0xfffffffb).args 1)) 3 = _
    rw [Function.update_self]
    rfl
  obtain ⟨r, k', hr, hneg, hmoved⟩ := wp_returns hw
  exact ⟨k, r, k', hk, hr, hneg, (F 0).file, hmoved⟩

end OsKernel.Sys
