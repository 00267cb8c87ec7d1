import Mathlib.Tactic.ByContra
import OsKernel.Lib.Memory
import OsKernel.Lib.Words
import OsKernel.Elf.Exec

/-!
# The arguments of a program

The two functions `exec` of `sys.cc` once more, down to the loops that measure the arguments,
gather them in a buffer on the heap and push them on the new stack. The first loop adds up the
size in a word; the second one copies what is there. `Elf/Exec.lean` has the buffer as one
list of bytes.

An access through the buffer that is not in it stops the run with `.overrun`. The machine
would go on, so a run that is said not to stop there has made no such access.

Every access is through a `Window`: the memory of the process, in which an access can be
refused, or the buffer, which an access can leave. The programs are the same whichever it is,
and the rules for loads, stores and copies are those of `Lib/Memory.lean`.

Two numbers are to be told apart. `total` is the size that the arguments need, a natural
number; the size of the buffer is a word. They are the same if the sum does not reach 2^32,
and otherwise the buffer is smaller and the second loop runs over its end. `buffer_contained`
says this in both directions. For the converse one has to know that the copies before that
point went through: `memcpy` counts down a signed number, so a string of 2^31 bytes is not
copied at all, and with strings of such a length the loop may end without having left the
buffer.

The arguments are given as pairs of a pointer and a length (`Passed`), and `place` says where
each string comes to be. The pointers in the buffer are offsets; what becomes of them is in
`Elf/Stack.lean`. The invariant of the second loop is `Filled`: the first `i` strings and
pointers are in place, and nothing outside the buffer has changed.
-/

set_option autoImplicit false

namespace OsKernel.Elf

open Lib Prog
open Sys (Config)
open Sys.Buffers (Protected)
open Block (Device)

/-! ## The code -/

abbrev Mem := Prog Leave Bytes

/-- Memory as a process has it. -/
def user (refused : Word → Bool) : Window Leave := ⟨fun a => !refused a, .killed⟩

/-- `new char[size]` -/
structure Buffer where
  start : Word
  size : Word

/-- The address is in the buffer. -/
def Buffer.Has (u : Buffer) (a : Word) : Prop := (a - u.start).toNat < u.size.toNat

instance (u : Buffer) (a : Word) : Decidable (u.Has a) := inferInstanceAs (Decidable (_ < _))

def Buffer.window (u : Buffer) : Window Leave := ⟨fun a => decide (u.Has a), .overrun⟩

/-- `memcpy` of `machine.S`. -/
def memcpy (w w' : Window Leave) (dest src n : Word) : Mem Unit :=
  Window.copy w w' dest src (Sys.zeros n)

/-- The loop of `K::strlen`, with `n`. -/
def strlenLoop (w : Window Leave) : Nat → Word → Word → Mem Word
  | 0, _, _ => throw .fuel
  | fuel + 1, str, n => do
    let c ← w.load str
    if c ≠ 0 then strlenLoop w fuel (str + 1#32) (n + 1#32) else pure n

/-- `K::strlen` -/
def strlen (w : Window Leave) (str : Word) : Mem Word := strlenLoop w (2 ^ 32) str 0

/-- The loop of `SYS::exec`, with `argc` and `sz`. -/
def measureLoop (w : Window Leave) (argv : Word) : Nat → Word → Word → Mem (Word × Word)
  | 0, _, _ => throw .fuel
  | fuel + 1, argc, sz => do
    let str ← w.loadWord (argv + 4#32 * argc)
    if str ≠ 0 then do
      let len ← strlen w str
      measureLoop w argv fuel (argc + 1#32) (sz + (len + 1#32))
    else pure (argc, sz)

/-- `SYS::exec(pcb, file, argv)`, up to the call of `exec`. -/
def measure (w : Window Leave) (argv : Word) : Mem (Word × Word) := measureLoop w argv (2 ^ 32) 0 0

/-- One argument goes to the buffer, at `string`. -/
def gatherOne (w : Window Leave) (u : Buffer) (argv : Word) (i : Nat) (string : Word) :
    Mem Word := do
  let str ← w.loadWord (argv + 4#32 * BitVec.ofNat 32 i)
  let len := (← strlen w str) + 1#32
  memcpy w u.window string str len
  u.window.storeWord (u.start + 4#32 * BitVec.ofNat 32 i) (string - u.start)
  pure (string + len)

/-- The arguments go to the buffer. -/
def gather (w : Window Leave) (u : Buffer) (argv argc : Word) : Mem Unit := do
  let offset := (argc + 1#32) * 4#32
  let _ ← foldI argc.toNat (u.start + offset) (gatherOne w u argv)
  u.window.storeWord (u.start + 4#32 * argc) 0

/-- The buffer for `argc` arguments of `sz` bytes, which `new` has put at `start`. -/
def Buffer.make (start argc sz : Word) : Buffer := ⟨start, sz + (argc + 1#32) * 4#32⟩

/-- Everything that is done to the arguments in the old address space. -/
def prepare (w : Window Leave) (start argv : Word) : Mem Unit := do
  let (argc, sz) ← measure w argv
  gather w (.make start argc sz) argv argc

/-- `((uint32_t*) esp)[i] += esp` -/
def relocateAt (w : Window Leave) (esp : Word) (i : Nat) : Mem Unit := do
  let v ← w.loadWord (esp + 4#32 * BitVec.ofNat 32 i)
  w.storeWord (esp + 4#32 * BitVec.ofNat 32 i) (v + esp)

/-- The buffer goes to the stack, and two words below it. -/
def push (g : Config) (w : Window Leave) (u : Buffer) (argc : Word) : Mem Word := do
  let esp := Sys.argBlock g u.size
  memcpy u.window w esp u.start u.size
  forI argc.toNat (relocateAt w esp)
  w.storeWord (esp - 8#32) argc
  w.storeWord (esp - 4#32) esp
  pure (esp - 8#32)

/-- A program over memory alone. -/
def inMemory {α : Type} (x : Mem α) : Exec α := fun s =>
  match x s.bus.mem with
  | .ok a m => .ok a { s with bus := { s.bus with mem := m } }
  | .error l m => .error l { s with bus := { s.bus with mem := m } }

/-- `SYS::exec(pcb, file, argv)`, where `new` puts the buffer at `start`. -/
def execAt (g : Config) (refused : Word → Bool) (start argv : Word) (d : Device) : Exec Word := do
  let (argc, sz) ← inMemory (measure (user refused) argv)
  match ← readHeader d with
  | none => pure Sys.failed
  | some eh =>
    let u := Buffer.make start argc sz
    inMemory (gather (user refused) u argv argc)
    reset g
    let entry ← load refused d eh
    let esp ← inMemory (push g (user refused) u argc)
    throw (.user entry esp)

/-! ## The arguments -/

variable {refused : Word → Bool} {m m' : Bytes} {argv a str : Word} {args : List (Word × Nat)}
variable {u : Buffer} {n i : Nat}

/-- The pointers from `argv` on, each to a string of the given length, and a null pointer. -/
structure Passed (refused : Word → Bool) (m : Bytes) (argv : Word) (args : List (Word × Nat)) :
    Prop where
  pointers : ∀ i (h : i < args.length), wordAt m (argv + 4#32 * BitVec.ofNat 32 i) = args[i].1
  nonnull : ∀ p ∈ args, p.1 ≠ 0
  ends : wordAt m (argv + 4#32 * BitVec.ofNat 32 args.length) = 0
  strings : ∀ p ∈ args, HasString m p.1 p.2
  readable : ∀ i ≤ args.length, (user refused).Through (argv + 4#32 * BitVec.ofNat 32 i) 4
  served : ∀ p ∈ args, (user refused).Through p.1 (p.2 + 1)

/-- Neither the pointers nor the strings are in the buffer. -/
structure Apart (u : Buffer) (argv : Word) (args : List (Word × Nat)) : Prop where
  pointers : ∀ i ≤ args.length, ∀ j < 4,
    ¬u.Has (argv + 4#32 * BitVec.ofNat 32 i + BitVec.ofNat 32 j)
  strings : ∀ p ∈ args, ∀ j ≤ p.2, ¬u.Has (p.1 + BitVec.ofNat 32 j)

/-- Where the `i`-th string comes to be in the buffer. -/
def place (args : List (Word × Nat)) (i : Nat) : Nat :=
  4 * (args.length + 1) + ((args.take i).map fun p => p.2 + 1).sum

/-- The size of the pointers and the strings. -/
def total (args : List (Word × Nat)) : Nat := place args args.length

@[simp] theorem place_zero : place args 0 = 4 * (args.length + 1) := rfl

theorem place_succ (h : i < args.length) : place args (i + 1) = place args i + (args[i].2 + 1) := by
  unfold place
  rw [List.take_succ_eq_append_getElem h, List.map_append, List.sum_append, List.map_singleton,
    List.sum_singleton, Nat.add_assoc]

theorem place_le_place {k : Nat} (hik : i ≤ k) (h : k ≤ args.length) :
    place args i ≤ place args k := by
  induction k, hik using Nat.le_induction with
  | base => exact Nat.le_refl _
  | succ k hk ih =>
    rw [place_succ h]
    exact Nat.le_trans (ih (Nat.le_of_succ_le h)) (Nat.le_add_right ..)

theorem place_le_total (h : i ≤ args.length) : place args i ≤ total args :=
  place_le_place h (Nat.le_refl _)

/-- A string and its end are below the end of the buffer. -/
theorem place_add_le (h : i < args.length) : place args i + (args[i].2 + 1) ≤ total args := by
  rw [← place_succ h]
  exact place_le_total h

theorem four_mul_ofNat (i : Nat) : 4#32 * BitVec.ofNat 32 i = BitVec.ofNat 32 (4 * i) :=
  (BitVec.ofNat_mul 4 i).symm

/-- There are not so many pointers that their addresses wrap. -/
theorem Passed.length_lt (A : Passed refused m argv args) : args.length < 2 ^ 30 := by
  by_contra hge
  have hlt : args.length - 2 ^ 30 < args.length := by omega
  have hat : 4#32 * BitVec.ofNat 32 (args.length - 2 ^ 30) = 4#32 * BitVec.ofNat 32 args.length := by
    rw [four_mul_ofNat, four_mul_ofNat, ← BitVec.toNat_inj, BitVec.toNat_ofNat, BitVec.toNat_ofNat]
    omega
  have hp := A.pointers _ hlt
  rw [hat, A.ends] at hp
  exact A.nonnull _ (List.getElem_mem hlt) hp.symm

/-! ## Reading them -/

/-- The length of a string, counted on. -/
theorem wp_strlenLoop {w : Window Leave} : ∀ {n fuel : Nat} {a k : Word}, HasString m a n →
    w.Through a (n + 1) → n < fuel →
    wp (strlenLoop w fuel a k) (fun r m' => r = k + BitVec.ofNat 32 n ∧ m' = m)
      (fun _ _ => False) m := by
  intro n
  induction n with
  | zero =>
    intro fuel a k hs hw hf
    obtain ⟨fuel, rfl⟩ := Nat.exists_eq_succ_of_ne_zero (Nat.ne_of_gt hf)
    have hnul : m a = 0 := (congrArg m (BitVec.add_zero a)).symm.trans hs.nul
    unfold strlenLoop
    rw [wp_bind]
    refine Window.wp_load (fun _ => ?_) fun hno => ?_
    · rw [if_neg (fun h => h hnul)]
      exact ⟨(BitVec.add_zero k).symm, rfl⟩
    · have h := hw 0 (Nat.zero_lt_succ _)
      rw [BitVec.add_zero, hno] at h
      cases h
  | succ n ih =>
    intro fuel a k hs hw hf
    obtain ⟨fuel, rfl⟩ := Nat.exists_eq_succ_of_ne_zero (Nat.ne_of_gt (Nat.zero_lt_of_lt hf))
    have hbody : m a ≠ 0 := fun h =>
      hs.body 0 (Nat.zero_lt_succ n) ((congrArg m (BitVec.add_zero a)).trans h)
    unfold strlenLoop
    rw [wp_bind]
    refine Window.wp_load (fun _ => ?_) fun hno => ?_
    · rw [if_pos hbody]
      refine wp_mono (ih hs.tail (fun j hj => ?_) (Nat.lt_of_succ_lt_succ hf)) (fun r m' h => ?_)
        fun _ _ h => h
      · have h := hw (1 + j) (by omega)
        rwa [← add_ofNat] at h
      · refine ⟨?_, h.2⟩
        rw [h.1, Nat.add_comm n 1, ← add_ofNat]
    · have h := hw 0 (Nat.zero_lt_succ _)
      rw [BitVec.add_zero, hno] at h
      cases h

theorem wp_strlen {w : Window Leave} (hs : HasString m a n) (hw : w.Through a (n + 1)) :
    wp (strlen w a) (fun r m' => r = BitVec.ofNat 32 n ∧ m' = m) (fun _ _ => False) m := by
  refine wp_mono (wp_strlenLoop hs hw hs.lt) (fun r m' h => ⟨?_, h.2⟩) fun _ _ h => h
  rw [h.1]
  exact BitVec.zero_add _

/-- The sizes of the arguments that are left are added up. -/
theorem wp_measureLoop (A : Passed refused m argv args) : ∀ {k i fuel : Nat} {sz : Word},
    i + k = args.length → k < fuel →
    wp (measureLoop (user refused) argv fuel (BitVec.ofNat 32 i) sz)
      (fun r m' => r = (BitVec.ofNat 32 args.length,
        sz + BitVec.ofNat 32 (total args - place args i)) ∧ m' = m) (fun _ _ => False) m := by
  intro k
  induction k with
  | zero =>
    intro i fuel sz hi hf
    obtain ⟨fuel, rfl⟩ := Nat.exists_eq_succ_of_ne_zero (Nat.ne_of_gt hf)
    obtain rfl : i = args.length := hi
    unfold measureLoop
    refine wp_seq (wp_mono Window.wp_loadWord (fun r m' h => h) fun l m' h =>
      h.2.2 (A.readable _ (Nat.le_refl _))) fun r m' h => ?_
    obtain ⟨rfl, rfl, -⟩ := h
    rw [if_neg fun h => h A.ends]
    refine ⟨?_, rfl⟩
    unfold total
    rw [Nat.sub_self]
    exact congrArg _ (BitVec.add_zero sz).symm
  | succ k ih =>
    intro i fuel sz hi hf
    obtain ⟨fuel, rfl⟩ := Nat.exists_eq_succ_of_ne_zero (Nat.ne_of_gt (Nat.zero_lt_of_lt hf))
    have hlt : i < args.length := by omega
    have hmem := List.getElem_mem hlt
    unfold measureLoop
    refine wp_seq (wp_mono Window.wp_loadWord (fun r m' h => h) fun l m' h =>
      h.2.2 (A.readable i (Nat.le_of_lt hlt))) fun r m' h => ?_
    obtain ⟨rfl, rfl, -⟩ := h
    rw [A.pointers i hlt, if_pos (A.nonnull _ hmem)]
    refine wp_seq (wp_strlen (A.strings _ hmem) (A.served _ hmem)) fun r m' h => ?_
    obtain ⟨rfl, rfl⟩ := h
    have hone : BitVec.ofNat 32 i + 1#32 = BitVec.ofNat 32 (i + 1) := (BitVec.ofNat_add i 1).symm
    rw [hone]
    refine wp_mono (ih (by omega) (Nat.lt_of_succ_lt_succ hf)) (fun r m' h => ⟨?_, h.2⟩)
      fun _ _ h => h
    have hle := place_add_le hlt
    have hsum : total args - place args i =
        args[i].2 + 1 + (total args - place args (i + 1)) := by
      rw [place_succ hlt]
      omega
    rw [h.1, hsum, BitVec.ofNat_add, BitVec.ofNat_add, BitVec.add_assoc]

/-- The size is the right one, as a word. -/
theorem wp_measure (A : Passed refused m argv args) :
    wp (measure (user refused) argv)
      (fun r m' => r.1 = BitVec.ofNat 32 args.length ∧ m' = m ∧
        ∀ start, Buffer.make start r.1 r.2 = ⟨start, BitVec.ofNat 32 (total args)⟩)
      (fun _ _ => False) m := by
  have hlen := A.length_lt
  refine wp_mono (wp_measureLoop A (Nat.zero_add _) (by omega)) (fun r m' h => ?_) fun _ _ h => h
  obtain ⟨rfl, rfl⟩ := h
  refine ⟨rfl, rfl, fun start => ?_⟩
  have hle : place args 0 ≤ total args := place_le_total (Nat.zero_le _)
  have hsum : total args = total args - place args 0 + (args.length + 1) * 4 := by
    rw [place_zero] at hle ⊢
    omega
  unfold Buffer.make
  congr 1
  conv_rhs => rw [hsum, BitVec.ofNat_add, BitVec.ofNat_mul, BitVec.ofNat_add]
  exact congrArg (· + _) (BitVec.zero_add _)

/-! ## The buffer -/

theorem has_offset (u : Buffer) {k : Nat} (hk : k < 2 ^ 32) :
    u.Has (u.start + BitVec.ofNat 32 k) ↔ k < u.size.toNat := by
  unfold Buffer.Has
  rw [toNat_sub_self_add hk]

theorem window_ok {x : Word} : u.window.ok x = true ↔ u.Has x := decide_eq_true_iff

/-- A buffer in kernel memory has no user address. -/
theorem not_has_high {start size x : Word} (hu : start.toNat + size.toNat ≤ 2 ^ 31)
    (hx : 2 ^ 31 ≤ x.toNat) : ¬Buffer.Has ⟨start, size⟩ x := by
  intro hin
  have hin : (x - start).toNat < size.toNat := hin
  have hlt := x.isLt
  rw [BitVec.toNat_sub] at hin
  omega

/-- A range that is in the buffer. -/
theorem through_of_le {o : Nat} (h : o + n ≤ u.size.toNat) :
    u.window.Through (u.start + BitVec.ofNat 32 o) n := by
  have hsize := u.size.isLt
  intro j hj
  rw [add_ofNat]
  exact window_ok.mpr ((has_offset u (by omega)).mpr (by omega))

/-- A range that starts in the buffer and does not leave it. -/
theorem le_of_through {o : Nat} (h : u.window.Through (u.start + BitVec.ofNat 32 o) n)
    (ho : o ≤ u.size.toNat) : o + n ≤ u.size.toNat := by
  by_contra hgt
  have hsize := u.size.isLt
  have hout := h (u.size.toNat - o) (by omega)
  rw [add_ofNat, Nat.add_sub_cancel' ho, window_ok, has_offset u hsize] at hout
  exact Nat.lt_irrefl _ hout

theorem lt_of_not_through {o : Nat} (h : ¬u.window.Through (u.start + BitVec.ofNat 32 o) n) :
    u.size.toNat < o + n := by
  by_contra hle
  exact h (through_of_le (Nat.not_lt.mp hle))

theorem zeros_le_size (n : Word) : Sys.zeros n ≤ n.toNat := by
  unfold Sys.zeros
  split
  · exact Nat.zero_le _
  · exact Nat.le_refl _

theorem zeros_le (n : Nat) : Sys.zeros (BitVec.ofNat 32 n) ≤ n := by
  refine Nat.le_trans (zeros_le_size _) ?_
  rw [BitVec.toNat_ofNat]
  exact Nat.mod_le ..

theorem zeros_small (h : n < 2 ^ 31) : Sys.zeros (BitVec.ofNat 32 n) = n := by
  unfold Sys.zeros
  have hn : (BitVec.ofNat 32 n).toNat = n := by
    rw [BitVec.toNat_ofNat]
    omega
  rw [BitVec.msb_eq_decide, hn, if_neg]
  rw [decide_eq_true_iff]
  omega

/-- Outside the buffer the memory is as it was. -/
def Framed (u : Buffer) (m m' : Bytes) : Prop := ∀ x, ¬u.Has x → m' x = m x

theorem Framed.trans {m₁ m₂ : Bytes} (F : Framed u m m₁) (F' : Framed u m₁ m₂) : Framed u m m₂ :=
  fun x hx => (F' x hx).trans (F x hx)

theorem framed_overlay {dest : Word} {f : Nat → Byte} (h : u.window.Through dest n) :
    Framed u m (overlay m dest n f) := by
  intro x hx
  refine overlay_off fun i hi he => hx ?_
  rw [he]
  exact window_ok.mp (h i hi)

theorem Framed.seen (F : Framed u m m') (h : ∀ j < n, ¬u.Has (a + BitVec.ofNat 32 j)) :
    ∀ j < n, seen m' a j = seen m a j := fun j hj => F _ (h j hj)

theorem Framed.wordAt (F : Framed u m m') (h : ∀ j < 4, ¬u.Has (a + BitVec.ofNat 32 j)) :
    wordAt m' a = wordAt m a := by
  refine le32_eq fun j hj => ?_
  rw [Nat.zero_add]
  exact F.seen h j hj

/-- Stores in the buffer leave the arguments as they were passed. -/
theorem Passed.framed (A : Passed refused m argv args) (P : Apart u argv args)
    (F : Framed u m m') : Passed refused m' argv args where
  pointers i hi := (F.wordAt (P.pointers i (Nat.le_of_lt hi))).trans (A.pointers i hi)
  nonnull := A.nonnull
  ends := (F.wordAt (P.pointers _ (Nat.le_refl _))).trans A.ends
  strings p hp := by
    have hs := A.strings p hp
    have hsame := F.seen (n := p.2 + 1) fun j hj => P.strings p hp j (Nat.le_of_lt_succ hj)
    refine ⟨hs.lt, fun j hj => ?_, ?_⟩
    · rw [hsame j (Nat.lt_succ_of_lt hj)]
      exact hs.body j hj
    · rw [hsame p.2 (Nat.lt_succ_self _)]
      exact hs.nul
  readable := A.readable
  served := A.served

/-! ## Gathering the arguments

The loop of `exec` copies one string in each turn, and stores where it is in the array in front.
`Filled` is the buffer after so many turns. A turn leaves the buffer only if the strings so far
are longer than what was measured, and that can only be if the size has wrapped around; this is
the one condition under which the buffer is overrun.

The strings are read from user memory while the buffer is written, so the two must be apart; the
buffer has just been allocated, so they are. -/

/-- How many bytes of the `i`-th string are copied: `memcpy` counts with a sign. -/
def copied (args : List (Word × Nat)) (i : Nat) (h : i < args.length) : Nat :=
  Sys.zeros (BitVec.ofNat 32 (args[i].2 + 1))

/-- The memory after one turn of the loop. -/
def gathered (m : Bytes) (u : Buffer) (str string : Word) (i n : Nat) : Bytes :=
  overlay (overlay m string n (seen m str)) (u.start + BitVec.ofNat 32 (4 * i)) 4
    (byteOf (string - u.start))

/-- One turn of the loop copies a string and notes where it is, or leaves the buffer. -/
theorem wp_gatherOne (A : Passed refused m argv args) (P : Apart u argv args)
    (hi : i < args.length) {string : Word} :
    wp (gatherOne (user refused) u argv i string)
      (fun r m' => r = string + BitVec.ofNat 32 (args[i].2 + 1) ∧
        m' = gathered m u args[i].1 string i (copied args i hi) ∧
        u.window.Through string (copied args i hi) ∧
        u.window.Through (u.start + BitVec.ofNat 32 (4 * i)) 4)
      (fun l _ => l = .overrun ∧ (¬u.window.Through string (copied args i hi) ∨
        ¬u.window.Through (u.start + BitVec.ofNat 32 (4 * i)) 4)) m := by
  have hmem := List.getElem_mem hi
  have hcopied : copied args i hi ≤ args[i].2 + 1 := zeros_le _
  unfold gatherOne
  refine wp_seq (wp_mono Window.wp_loadWord (fun r m' h => h) fun l m' h =>
    absurd (A.readable i (Nat.le_of_lt hi)) h.2.2) fun r m' h => ?_
  obtain ⟨rfl, rfl, -⟩ := h
  rw [A.pointers i hi]
  refine wp_seq (wp_mono (wp_strlen (A.strings _ hmem) (A.served _ hmem)) (fun r m' h => h)
    fun _ _ h => h.elim) fun r m' h => ?_
  obtain ⟨rfl, rfl⟩ := h
  have hlen : BitVec.ofNat 32 args[i].2 + 1#32 = BitVec.ofNat 32 (args[i].2 + 1) :=
    (BitVec.ofNat_add _ 1).symm
  rw [hlen, four_mul_ofNat]
  refine wp_seq (wp_mono (Window.wp_copy (n := copied args i hi) ?_ ?_) (fun r m' h => h)
    fun l m' h => ?_) fun r m₁ h => ?_
  · exact Nat.le_trans (zeros_le _) (A.strings _ hmem).lt
  · intro j hj k _ hok he
    refine P.strings _ hmem j (by omega) ?_
    rw [he]
    exact window_ok.mp hok
  · rcases h with ⟨-, hno⟩ | ⟨hl, hno⟩
    · exact absurd (fun j hj => A.served _ hmem j (by omega)) hno
    · exact ⟨hl, .inl hno⟩
  · obtain ⟨rfl, hthrough⟩ := h
    refine wp_seq (wp_mono Window.wp_storeWord (fun r m' h => h) fun l m' h => ⟨h.1, .inr h.2⟩)
      fun _ m₂ h => ?_
    obtain ⟨rfl, hword⟩ := h
    exact ⟨rfl, rfl, hthrough, hword⟩

/-- What the loop has done after `i` turns. -/
structure Filled (u : Buffer) (args : List (Word × Nat)) (m : Bytes) (i : Nat) (m' : Bytes) :
    Prop where
  frame : Framed u m m'
  strings : ∀ k (h : k < args.length), k < i → args[k].2 + 1 < 2 ^ 31 →
    ∀ j ≤ args[k].2, seen m' u.start (place args k + j) = seen m args[k].1 j
  pointers : ∀ k < i, le32 (seen m' u.start) (4 * k) = BitVec.ofNat 32 (place args k)

/-- One more string. -/
theorem Filled.step (F : Filled u args m i m') (P : Apart u argv args) (hi : i < args.length)
    (hfits : place args i + copied args i hi ≤ u.size.toNat) (hplace : place args i ≤ u.size.toNat) :
    Filled u args m (i + 1)
      (gathered m' u args[i].1 (u.start + BitVec.ofNat 32 (place args i)) i (copied args i hi)) := by
  have hsize := u.size.isLt
  have hzero : place args 0 ≤ place args i := place_le_place (Nat.zero_le i) (Nat.le_of_lt hi)
  rw [place_zero] at hzero
  have hpointer : u.start + BitVec.ofNat 32 (place args i) - u.start =
      BitVec.ofNat 32 (place args i) := by
    rw [BitVec.add_comm, BitVec.add_sub_cancel]
  have hseen : ∀ k < 2 ^ 32, seen (gathered m' u args[i].1
      (u.start + BitVec.ofNat 32 (place args i)) i (copied args i hi)) u.start k =
      if 4 * i ≤ k ∧ k < 4 * i + 4 then byteOf (BitVec.ofNat 32 (place args i)) (k - 4 * i)
      else if place args i ≤ k ∧ k < place args i + copied args i hi then
        seen m' args[i].1 (k - place args i)
      else seen m' u.start k := by
    intro k hk
    unfold gathered
    rw [seen_overlay (by omega) hk, seen_overlay (by omega) hk, hpointer]
  refine ⟨F.frame.trans ?_, fun k hk hlt hsmall j hj => ?_, fun k hk => ?_⟩
  · exact (framed_overlay (through_of_le hfits)).trans (framed_overlay (through_of_le (by omega)))
  · have hnext : place args k + (args[k].2 + 1) ≤ total args := place_add_le hk
    have hbelow : 4 * (args.length + 1) ≤ place args k := place_le_place (Nat.zero_le k) hk.le
    rcases Nat.lt_or_eq_of_le (Nat.le_of_lt_succ hlt) with hlt | rfl
    · have hsucc := place_le_place hlt (Nat.le_of_lt hi)
      rw [place_succ hk] at hsucc
      rw [hseen _ (by omega), if_neg (by omega), if_neg (by omega)]
      exact F.strings k hk hlt hsmall j hj
    · have hall : copied args k hk = args[k].2 + 1 := zeros_small hsmall
      rw [hseen _ (by omega), if_neg (by omega), if_pos (by omega), Nat.add_sub_cancel_left]
      exact F.frame.seen (P.strings _ (List.getElem_mem hk) · <| Nat.le_of_lt_succ ·) j
        (Nat.lt_succ_of_le hj)
  · rcases Nat.lt_or_eq_of_le (Nat.le_of_lt_succ hk) with hlt | rfl
    · rw [← F.pointers k hlt]
      refine le32_eq fun j hj => ?_
      rw [hseen _ (by omega), if_neg (by omega), if_neg (by omega)]
    · refine le32_bytes fun j hj => ?_
      rw [hseen _ (by omega), if_pos (by omega), Nat.add_sub_cancel_left]

/-- The buffer as `exec` leaves it. -/
structure Gathered (u : Buffer) (args : List (Word × Nat)) (m m' : Bytes) : Prop where
  filled : Filled u args m args.length m'
  null : le32 (seen m' u.start) (4 * args.length) = 0
  fits : total args ≤ u.size.toNat

/-- The null pointer behind the others. -/
theorem Filled.last (F : Filled u args m args.length m') (hfits : total args ≤ u.size.toNat) :
    Gathered u args m
      (overlay m' (u.start + BitVec.ofNat 32 (4 * args.length)) 4 (byteOf 0)) := by
  have hsize := u.size.isLt
  have hzero : place args 0 ≤ total args := place_le_total (Nat.zero_le _)
  rw [place_zero] at hzero
  have hseen : ∀ k < 2 ^ 32, seen (overlay m' (u.start + BitVec.ofNat 32 (4 * args.length)) 4
      (byteOf 0)) u.start k = if 4 * args.length ≤ k ∧ k < 4 * args.length + 4 then
        byteOf 0 (k - 4 * args.length) else seen m' u.start k :=
    fun k hk => seen_overlay (by omega) hk
  refine ⟨⟨?_, fun k hk hlt hsmall j hj => ?_, fun k hk => ?_⟩, ?_, hfits⟩
  · exact F.frame.trans (framed_overlay (through_of_le (by omega)))
  · have hnext := place_add_le hk
    have hbelow : 4 * (args.length + 1) ≤ place args k := place_le_place (Nat.zero_le k) hk.le
    rw [hseen _ (by omega), if_neg (by omega)]
    exact F.strings k hk hlt hsmall j hj
  · rw [← F.pointers k hk]
    refine le32_eq fun j hj => ?_
    rw [hseen _ (by omega), if_neg (by omega)]
  · refine le32_bytes fun j hj => ?_
    rw [hseen _ (by omega), if_pos (by omega), Nat.add_sub_cancel_left]

/-- A copy that leaves the buffer is longer than it. -/
theorem copied_outside (hi : i < args.length)
    (hno : ¬u.window.Through (u.start + BitVec.ofNat 32 (place args i)) (copied args i hi)) :
    u.size.toNat < total args := by
  have hlt := lt_of_not_through hno
  have hle : copied args i hi ≤ args[i].2 + 1 := zeros_le _
  have hnext := place_add_le hi
  omega

/-- A copy that does not leave the buffer ends in it. -/
theorem copied_inside (hi : i < args.length)
    (hshort : total args ≤ u.size.toNat ∨ ∀ p ∈ args, p.2 + 1 < 2 ^ 31)
    (hplace : place args i ≤ u.size.toNat)
    (h : u.window.Through (u.start + BitVec.ofNat 32 (place args i)) (copied args i hi)) :
    place args (i + 1) ≤ u.size.toNat := by
  rcases hshort with hfits | hshort
  · exact Nat.le_trans (place_le_total hi) hfits
  · have hall : copied args i hi = args[i].2 + 1 := zeros_small (hshort _ (List.getElem_mem hi))
    rw [place_succ hi, ← hall]
    exact le_of_through h hplace

/-- The pointers alone do not fit. -/
theorem wp_gather_tiny (A : Passed refused m argv args) (P : Apart u argv args)
    (htiny : u.size.toNat < 4 * (args.length + 1)) :
    wp (gather (user refused) u argv (BitVec.ofNat 32 args.length)) (fun _ _ => False)
      (fun l _ => l = .overrun) m := by
  have hlen := A.length_lt
  have hcount : (BitVec.ofNat 32 args.length).toNat = args.length := by
    rw [BitVec.toNat_ofNat]
    omega
  unfold gather
  rw [hcount, four_mul_ofNat]
  refine wp_seq (wp_foldI (I := fun _ _ => Framed u m) (fun i hi string m' F => ?_)
    fun _ _ => rfl) fun string m' F => ?_
  · refine wp_mono (wp_gatherOne (A.framed P F) P hi) (fun r m₂ h => ?_) fun l _ h => h.1
    obtain ⟨-, rfl, hthrough, hword⟩ := h
    exact F.trans ((framed_overlay hthrough).trans (framed_overlay hword))
  · refine wp_mono Window.wp_storeWord (fun _ _ h => ?_) fun _ _ h => h.1
    have hlast := h.2 3 (by decide)
    rw [add_ofNat, window_ok, has_offset u (by omega)] at hlast
    omega

/-- The arguments are gathered, or the buffer is too small. -/
theorem wp_gather (A : Passed refused m argv args) (P : Apart u argv args)
    (hshort : total args ≤ u.size.toNat ∨ ∀ p ∈ args, p.2 + 1 < 2 ^ 31) :
    wp (gather (user refused) u argv (BitVec.ofNat 32 args.length))
      (fun _ m' => Gathered u args m m')
      (fun l _ => l = .overrun ∧ u.size.toNat < total args) m := by
  have hlen := A.length_lt
  have hzero : place args 0 ≤ total args := place_le_total (Nat.zero_le _)
  rw [place_zero] at hzero
  by_cases htiny : u.size.toNat < 4 * (args.length + 1)
  · exact wp_mono (wp_gather_tiny A P htiny) (fun _ _ h => h.elim) fun _ _ h =>
      ⟨h, Nat.lt_of_lt_of_le htiny hzero⟩
  have hcount : (BitVec.ofNat 32 args.length).toNat = args.length := by
    rw [BitVec.toNat_ofNat]
    omega
  have hoffset : (BitVec.ofNat 32 args.length + 1#32) * 4#32 = BitVec.ofNat 32 (place args 0) := by
    rw [place_zero, Nat.mul_comm, BitVec.ofNat_mul, BitVec.ofNat_add]
  unfold gather
  rw [hcount, four_mul_ofNat, hoffset]
  refine wp_seq (wp_foldI (I := fun i string m' => Filled u args m i m' ∧
    string = u.start + BitVec.ofNat 32 (place args i) ∧ place args i ≤ u.size.toNat)
    (fun i hi string m' h => ?_) ⟨⟨fun _ _ => rfl, fun k _ hk => absurd hk (Nat.not_lt_zero k),
      fun k hk => absurd hk (Nat.not_lt_zero k)⟩, rfl, by rw [place_zero]; omega⟩)
    fun string m' h => ?_
  · obtain ⟨F, rfl, hplace⟩ := h
    refine wp_mono (wp_gatherOne (A.framed P F.frame) P hi) (fun r m₂ h => ?_) fun l m₂ h => ?_
    · obtain ⟨rfl, rfl, hthrough, -⟩ := h
      refine ⟨F.step P hi (le_of_through hthrough hplace) hplace, ?_,
        copied_inside hi hshort hplace hthrough⟩
      rw [add_ofNat, place_succ hi]
    · obtain ⟨rfl, hno | hno⟩ := h
      · exact ⟨rfl, copied_outside hi hno⟩
      · have hlt := lt_of_not_through hno
        omega
  · obtain ⟨F, -, hplace⟩ := h
    refine wp_mono Window.wp_storeWord (fun _ m₂ h => ?_) fun _ _ h => ?_
    · obtain ⟨rfl, -⟩ := h
      exact F.last hplace
    · have hlt := lt_of_not_through h.2
      omega

/-- The arguments have been measured. -/
theorem wp_prepare (A : Passed refused m argv args) {start : Word} {Q : Unit → Bytes → Prop}
    {E : Leave → Bytes → Prop} (h : wp (gather (user refused) ⟨start, BitVec.ofNat 32 (total args)⟩
      argv (BitVec.ofNat 32 args.length)) Q E m) : wp (prepare (user refused) start argv) Q E m := by
  refine wp_seq (wp_mono (wp_measure A) (fun r m' h => h) fun _ _ h => h.elim) fun r m' hr => ?_
  obtain ⟨argc, sz⟩ := r
  obtain ⟨rfl, rfl, hu⟩ := hr
  refine Eq.mp ?_ h
  rw [← hu start]

/-- No access through the buffer leaves it. -/
def Contained (refused : Word → Bool) (start argv : Word) (m : Bytes) : Prop :=
  wp (prepare (user refused) start argv) (fun _ _ => True) (fun l _ => l ≠ .overrun) m

/-- A total that fits in a word is the size of the buffer. -/
theorem contained_of_total {start : Word} (A : Passed refused m argv args)
    (P : Apart ⟨start, BitVec.ofNat 32 (total args)⟩ argv args) (hlt : total args < 2 ^ 32) :
    Contained refused start argv m := by
  have hfits : total args ≤ (BitVec.ofNat 32 (total args)).toNat := by
    rw [BitVec.toNat_ofNat, Nat.mod_eq_of_lt hlt]
  refine wp_prepare A (wp_mono (wp_gather A P (.inl hfits)) (fun _ _ _ => trivial) fun l _ h => ?_)
  exact absurd h.2 (Nat.not_lt.mpr hfits)

/-- What has been gathered in the buffer is at most its size. -/
theorem total_of_contained {start : Word} (A : Passed refused m argv args)
    (P : Apart ⟨start, BitVec.ofNat 32 (total args)⟩ argv args)
    (hshort : ∀ p ∈ args, p.2 + 1 < 2 ^ 31) (h : Contained refused start argv m) :
    total args < 2 ^ 32 := by
  obtain ⟨-, m', -, hgathered⟩ := wp_returns (wp_mono
    (wp_and h (wp_prepare A (wp_gather A P (.inr hshort)))) (fun _ m' h => h.2)
    fun _ _ h => h.1 h.2.1)
  have hfits := hgathered.fits
  have hmod : total args % 2 ^ 32 < 2 ^ 32 := Nat.mod_lt _ (by decide)
  rw [BitVec.toNat_ofNat] at hfits
  omega

/-- The buffer is never overrun if the total fits in a word; and only then, where no string is so
long that `memcpy` takes its length for negative, which none in user memory is. -/
theorem buffer_contained (refused : Word → Bool) (m : Bytes) (start argv : Word)
    (args : List (Word × Nat)) (A : Passed refused m argv args)
    (P : Apart ⟨start, BitVec.ofNat 32 (total args)⟩ argv args) :
    (total args < 2 ^ 32 → Contained refused start argv m) ∧
    ((∀ p ∈ args, p.2 + 1 < 2 ^ 31) → Contained refused start argv m → total args < 2 ^ 32) :=
  ⟨contained_of_total A P, total_of_contained A P⟩

/-- `n` pointers from the start of user memory on, all to one string of `k` bytes. -/
def repeated (n k : Nat) : Bytes := fun a =>
  let o := (a - 0x80000000#32).toNat
  if o < 4 * n then byteOf 0x80010000#32 (o % 4)
  else if 0x10000 ≤ o ∧ o < 0x10000 + k then 0x61 else 0

/-- What was passed in this memory. -/
def repeatedArgs (n k : Nat) : List (Word × Nat) := List.replicate n (0x80010000#32, k)

theorem seen_repeated {n k o : Nat} (ho : o < 2 ^ 32) :
    seen (repeated n k) 0x80000000#32 o = if o < 4 * n then byteOf 0x80010000#32 (o % 4)
      else if 0x10000 ≤ o ∧ o < 0x10000 + k then 0x61 else 0 := by
  unfold seen repeated
  rw [toNat_sub_self_add ho]

theorem total_repeated (n k : Nat) : total (repeatedArgs n k) = 4 * (n + 1) + n * (k + 1) := by
  unfold total place repeatedArgs
  rw [List.take_length, List.map_replicate, List.sum_replicate_nat, List.length_replicate]

theorem repeated_passed {n k : Nat} (hn : n < 0x4000) (hk : k < 2 ^ 24) :
    Passed (fun _ => false) (repeated n k) 0x80000000#32 (repeatedArgs n k) := by
  have hlen : (repeatedArgs n k).length = n := List.length_replicate ..
  have hstr : ∀ p ∈ repeatedArgs n k, p = (0x80010000#32, k) := fun p hp => List.eq_of_mem_replicate hp
  have hat : (0x80010000#32 : Word) = 0x80000000#32 + BitVec.ofNat 32 0x10000 := by decide
  refine ⟨fun i hi => ?_, fun p hp => ?_, ?_, fun p hp => ?_, fun _ _ _ _ => rfl, fun _ _ _ _ => rfl⟩
  · have helem : (repeatedArgs n k)[i] = (0x80010000#32, k) := List.getElem_replicate ..
    rw [helem, four_mul_ofNat, wordAt_add]
    refine le32_bytes fun j hj => ?_
    have hmod : (4 * i + j) % 4 = j := by omega
    rw [seen_repeated (by omega), if_pos (by omega), hmod]
  · rw [hstr p hp]
    exact (by decide : (0x80010000#32 : Word) ≠ 0)
  · rw [hlen, four_mul_ofNat, wordAt_add]
    refine le32_bytes fun j hj => ?_
    rw [seen_repeated (by omega), if_neg (by omega), if_neg (by omega)]
    match j, hj with
    | 0, _ | 1, _ | 2, _ | 3, _ => rfl
  · rw [hstr p hp]
    refine ⟨Nat.lt_trans hk (by decide), fun j hj => ?_, ?_⟩
    · rw [hat, seen_add, seen_repeated (by omega), if_neg (by omega), if_pos (by omega)]
      decide
    · rw [hat, seen_add, seen_repeated (by omega), if_neg (by omega), if_neg (by omega)]

/-- The buffer is in kernel memory and the arguments are not. -/
theorem repeated_apart {n k : Nat} (hn : n < 0x4000) (hk : k < 2 ^ 24) {start size : Word}
    (hu : start.toNat + size.toNat ≤ 2 ^ 31) :
    Apart ⟨start, size⟩ 0x80000000#32 (repeatedArgs n k) := by
  have hlen : (repeatedArgs n k).length = n := List.length_replicate ..
  have hhigh : ∀ o < 2 ^ 31, ¬Buffer.Has ⟨start, size⟩ (0x80000000#32 + BitVec.ofNat 32 o) := by
    intro o ho
    refine not_has_high hu ?_
    rw [BitVec.toNat_add, BitVec.toNat_ofNat, BitVec.toNat_ofNat]
    omega
  refine ⟨fun i hi j hj => ?_, fun p hp j hj => ?_⟩
  · rw [hlen] at hi
    rw [four_mul_ofNat, add_ofNat]
    exact hhigh _ (by omega)
  · obtain rfl : p = (0x80010000#32, k) := List.eq_of_mem_replicate hp
    have hat : (0x80010000#32 : Word) = 0x80000000#32 + BitVec.ofNat 32 0x10000 := by decide
    have hj' : j ≤ k := hj
    rw [hat, add_ofNat]
    exact hhigh _ (by omega)

theorem buffer_contained_two :
    Contained (fun _ => false) 0x00200000#32 0x80000000#32 (repeated 2 3) :=
  (buffer_contained _ _ _ _ _ (repeated_passed (by decide) (by decide))
    (repeated_apart (by decide) (by decide) (by decide +kernel))).1 (by decide +kernel)

/-- So many arguments that the size wraps around. -/
theorem overrun_repeated {n k : Nat} (hn : n < 0x4000) (hk : k < 2 ^ 24) {start : Word}
    (hu : start.toNat + (BitVec.ofNat 32 (total (repeatedArgs n k))).toNat ≤ 2 ^ 31)
    (hbig : 2 ^ 32 ≤ 4 * (n + 1) + n * (k + 1)) :
    ¬Contained (fun _ => false) start 0x80000000#32 (repeated n k) := by
  intro h
  have hlt := total_of_contained (repeated_passed hn hk) (repeated_apart hn hk hu) (fun p hp => ?_) h
  · rw [total_repeated] at hlt
    omega
  · obtain rfl : p = (0x80010000#32, k) := List.eq_of_mem_replicate hp
    have hk' : k + 1 < 2 ^ 31 := by omega
    exact hk'

/-- 4096 arguments that are one string of 1 MB: the size wraps around to 16388. -/
theorem buffer_overrun :
    ¬Contained (fun _ => false) 0x00200000#32 0x80000000#32 (repeated 4096 0xfffff) := by
  refine overrun_repeated (by decide) (by decide) ?_ (by decide)
  rw [total_repeated]
  decide

end OsKernel.Elf
