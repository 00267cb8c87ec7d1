import OsKernel.Lib.Simulation
import OsKernel.Elf.Arguments

/-!
# The new stack

What the program that has been started finds at its stack pointer: the number of its
arguments, the address of the pointers to them, the pointers, and the strings. The pointers
are offsets while they are in the buffer and are made addresses once they are on the stack.

`Placed` is where the block is: below the lower of the two APICs, with its start aligned, and
above the middle of the address space. It needs that the arguments are not so large that this
wraps around, which the kernel gets for free from the size of its heap.

The proof follows the memory through the call in three parts. The buffer is filled in the old
address space (`Gathered`, from `Elf/Arguments.lean`). `reset` and the loader change user
memory, and the buffer is not there (`fresh_low`, `loaded_apart`); that no segment is loaded
over the buffer has to be assumed, as the loader does not look (`Elf/Stores.lean` is about
that). Then the buffer is copied and each pointer in the copy gets the address of the copy
added to it (`Relocated`, the invariant of that loop). `OnStack.arrived` puts them together,
in terms of what a program would look at: words at its stack pointer, and strings at the
words.

`wp_execAt` is the whole call, with all that is known where it comes to `switchToUser`
(`Begins`). `arguments_arrive` takes its part from it, and so does `Elf/Versions.lean`.
-/

set_option autoImplicit false

namespace OsKernel.Elf

open Lib Prog
open Sys (Config)
open Sys.Buffers (Protected)
open Block (Device)

variable {g : Config} {refused : Word → Bool} {m m' : Bytes} {argv : Word}
variable {args : List (Word × Nat)} {u : Buffer} {d : Device} {s : State}

/-! ## Where it is -/

/-- The end of the stack. -/
def userStack (g : Config) : Word := if g.localAPIC < g.ioAPIC then g.localAPIC else g.ioAPIC

theorem toNat_and_sixteen (w : Word) : (w &&& 0xfffffff0#32).toNat = w.toNat / 16 * 16 := by
  have h := mask_add_mask (by decide : 0xfffffff0#32 ||| 0xf#32 = BitVec.allOnes 32) (by decide) w
  have hlo : (0xf#32).toNat = 2 ^ 4 - 1 := by decide
  rw [BitVec.toNat_and w 0xf#32, hlo, Nat.and_two_pow_sub_one_eq_mod] at h
  omega

/-- The stack pointer of the program. -/
structure Placed (g : Config) (sz e : Word) : Prop where
  block : Sys.argBlock g sz = e + BitVec.ofNat 32 8
  aligned : e.toNat % 16 = 0
  high : 2 ^ 31 ≤ e.toNat
  below : e.toNat + 8 + sz.toNat ≤ (userStack g).toNat

theorem placed {sz : Word} (h : sz.toNat + 2 ^ 31 + 32 < (userStack g).toNat) :
    Placed g sz ((userStack g - sz - 8#32) &&& 0xfffffff0#32) := by
  have hu := (userStack g).isLt
  have h8 : (8#32).toNat = 8 := rfl
  have hsub : (userStack g - sz - 8#32).toNat = (userStack g).toNat - sz.toNat - 8 := by
    rw [BitVec.toNat_sub, BitVec.toNat_sub, h8]
    omega
  refine ⟨rfl, ?_, ?_, ?_⟩ <;> rw [toNat_and_sixteen, hsub] <;> omega

/-! ## Outside of it -/

/-- The eight bytes from `e` on and the copy of the buffer behind them. -/
def InBlock (u : Buffer) (e x : Word) : Prop := ∃ i < 8 + u.size.toNat, x = e + BitVec.ofNat 32 i

/-- Outside the block, the memory is `m`. -/
abbrev Outside {α : Type} (m : Bytes) (u : Buffer) (e : Word) (x : Mem α) : Prop :=
  Keeps (fun m' => ∀ x, ¬InBlock u e x → m' x = m x) (fun _ => True) x

variable {o : Window Leave} {e v : Word} {argc : Nat}

theorem outside_load {x : Word} : Outside m u e (o.load x) :=
  fun _ h => Window.wp_load (fun _ => h) fun _ => trivial

theorem outside_loadWord {x : Word} : Outside m u e (o.loadWord x) :=
  outside_load.bind fun _ => outside_load.bind fun _ => outside_load.bind fun _ =>
    outside_load.bind fun _ => .pure _

theorem outside_store {i : Nat} (hi : i < 8 + u.size.toNat) {b : Byte} :
    Outside m u e (o.store (e + BitVec.ofNat 32 i) b) := fun m' h => by
  refine Window.wp_store (fun _ x hx => ?_) fun _ => trivial
  have hne : x ≠ e + BitVec.ofNat 32 i := fun he => hx ⟨i, hi, he⟩
  rw [overlay_one, Function.update_of_ne hne]
  exact h x hx

theorem outside_storeWord {i : Nat} (hi : i + 4 ≤ 8 + u.size.toNat) :
    Outside m u e (o.storeWord (e + BitVec.ofNat 32 i) v) :=
  .forI fun j hj => by
    rw [add_ofNat]
    exact outside_store (by omega)

/-- The addresses that `push` computes. -/
theorem placed_offsets (P : Placed g u.size e) (hfit : 4 * (argc + 1) ≤ u.size.toNat) :
    Sys.argBlock g u.size = e + BitVec.ofNat 32 8 ∧ (BitVec.ofNat 32 argc).toNat = argc ∧
    e + BitVec.ofNat 32 8 - 8#32 = e + BitVec.ofNat 32 0 ∧
    e + BitVec.ofNat 32 8 - 4#32 = e + BitVec.ofNat 32 4 := by
  have hsize := u.size.isLt
  refine ⟨P.block, ?_, ?_, ?_⟩
  · rw [BitVec.toNat_ofNat]
    omega
  · rw [BitVec.add_sub_cancel, BitVec.add_zero]
  · rw [BitVec.sub_eq_add_neg, BitVec.add_assoc]
    rfl

theorem outside_push (P : Placed g u.size e) (hfit : 4 * (argc + 1) ≤ u.size.toNat) :
    Outside m u e (push g (user refused) u (BitVec.ofNat 32 argc)) := by
  obtain ⟨hblock, hcount, hlow, hmid⟩ := placed_offsets P hfit
  unfold push
  simp only [hblock, hcount, hlow, hmid]
  refine Keeps.bind (.forI fun i hi => ?_) fun _ => ?_
  · refine outside_load.bind fun b => ?_
    have hi' : i < u.size.toNat := Nat.lt_of_lt_of_le hi (zeros_le_size u.size)
    rw [add_ofNat]
    exact outside_store (by omega)
  refine Keeps.bind (.forI fun i hi => ?_) fun _ => ?_
  · unfold relocateAt
    rw [four_mul_ofNat, add_ofNat]
    exact outside_loadWord.bind fun b => outside_storeWord (by omega)
  exact (outside_storeWord (by omega)).bind fun _ => (outside_storeWord (by omega)).bind fun _ =>
    .pure _

/-! ## Pushing the buffer -/

theorem user_ok {x : Word} : (user refused).ok x = true ↔ refused x = false := by
  unfold user
  simp

/-- The stack after the first `i` pointers were made addresses. -/
structure Relocated (u : Buffer) (argc : Nat) (m : Bytes) (e : Word) (i : Nat) (m' : Bytes) :
    Prop where
  done : ∀ k < i, le32 (seen m' e) (8 + 4 * k) =
    le32 (seen m u.start) (4 * k) + (e + BitVec.ofNat 32 8)
  rest : ∀ k < u.size.toNat, 4 * i ≤ k → seen m' e (8 + k) = seen m u.start k

/-- One more pointer. -/
theorem wp_relocateAt {i : Nat} (hfit : 4 * (argc + 1) ≤ u.size.toNat)
    (hsize : u.size.toNat < 2 ^ 31) (hi : i < argc) (R : Relocated u argc m e i m') :
    wp (relocateAt (user refused) (e + BitVec.ofNat 32 8) i)
      (fun _ => Relocated u argc m e (i + 1)) (fun l _ => l = .killed) m' := by
  unfold relocateAt
  rw [four_mul_ofNat, add_ofNat]
  refine wp_seq (wp_mono Window.wp_loadWord (fun r m' h => h) fun l m' h => h.1) fun v m₁ h => ?_
  obtain ⟨rfl, rfl, -⟩ := h
  have hword : wordAt m₁ (e + BitVec.ofNat 32 (8 + 4 * i)) = le32 (seen m u.start) (4 * i) := by
    rw [wordAt_add]
    unfold le32
    have hat : ∀ j < 4, seen m₁ e (8 + 4 * i + j) = seen m u.start (4 * i + j) := fun j hj => by
      rw [Nat.add_assoc]
      exact R.rest _ (by omega) (by omega)
    have h₀ : seen m₁ e (8 + 4 * i) = seen m u.start (4 * i) := hat 0 (by decide)
    rw [h₀, hat 1 (by decide), hat 2 (by decide), hat 3 (by decide)]
  rw [hword]
  refine wp_mono Window.wp_storeWord (fun _ m₂ h => ?_) fun l _ h => h.1
  obtain ⟨rfl, -⟩ := h
  refine ⟨fun k hk => ?_, fun k hk hge => ?_⟩
  · rcases Nat.lt_or_eq_of_le (Nat.le_of_lt_succ hk) with hlt | rfl
    · rw [← R.done k hlt]
      refine le32_eq fun j hj => ?_
      rw [seen_overlay (by omega) (by omega), if_neg (by omega)]
    · refine le32_bytes fun j hj => ?_
      rw [seen_overlay (by omega) (by omega), if_pos (by omega), Nat.add_sub_cancel_left]
  · rw [seen_overlay (by omega) (by omega), if_neg (by omega)]
    exact R.rest k hk (by omega)

/-- What is on the stack when the program is started. -/
structure OnStack (u : Buffer) (argc : Nat) (m : Bytes) (e : Word) (m' : Bytes) : Prop where
  relocated : Relocated u argc m e argc m'
  argc : le32 (seen m' e) 0 = BitVec.ofNat 32 argc
  argv : le32 (seen m' e) 4 = e + BitVec.ofNat 32 8

/-- The buffer is pushed, unless the stack is refused. -/
theorem wp_pushBuffer (P : Placed g u.size e) (hfit : 4 * (argc + 1) ≤ u.size.toNat)
    (hkernel : u.start.toNat + u.size.toNat ≤ 2 ^ 31) :
    wp (push g (user refused) u (BitVec.ofNat 32 argc))
      (fun r m' => r = e ∧ OnStack u argc m e m' ∧ ∀ x, InBlock u e x → refused x = false)
      (fun l _ => l = .killed) m := by
  have hstack := (userStack g).isLt
  have hbelow := P.below
  have hhigh := P.high
  have hsize : u.size.toNat < 2 ^ 31 := by omega
  obtain ⟨hblock, hcount, hlow, hmid⟩ := placed_offsets P hfit
  have hzeros : Sys.zeros u.size = u.size.toNat := by
    unfold Sys.zeros
    rw [BitVec.msb_eq_decide, if_neg]
    rw [decide_eq_true_iff]
    omega
  unfold push
  simp only [hblock, hcount, hlow, hmid]
  unfold memcpy
  rw [hzeros]
  refine wp_seq (wp_mono (Window.wp_copy (by omega) ?_) (fun r m' h => h) fun l _ h => ?_)
    fun _ m₁ h => ?_
  · intro i hi j hj _ he
    have hsrc := toNat_offset (a := u.start) (i := i) (by omega)
    have hdest := toNat_offset (a := e) (i := 8 + j) (by omega)
    rw [add_ofNat] at he
    have := congrArg BitVec.toNat he
    omega
  · rcases h with ⟨-, hno⟩ | ⟨hl, -⟩
    · refine absurd (fun j hj => ?_) hno
      exact window_ok.mpr ((has_offset u (by omega)).mpr hj)
    · exact hl
  -- the block is there; then its pointers are made relative to the stack, one by one
  · obtain ⟨rfl, hcopied⟩ := h
    refine wp_seq (wp_forI (I := Relocated u argc m e) (fun i hi m' R => wp_relocateAt hfit hsize hi R)
      ⟨fun k hk => absurd hk (Nat.not_lt_zero k), fun k hk _ => ?_⟩) fun _ m₂ R => ?_
    · rw [seen_overlay (by omega) (by omega), if_pos (by omega), Nat.add_sub_cancel_left]
    · refine wp_seq (wp_mono Window.wp_storeWord (fun r m' h => h) fun l _ h => h.1) fun _ m₃ h => ?_
      obtain ⟨rfl, hargc⟩ := h
      refine wp_seq (wp_mono Window.wp_storeWord (fun r m' h => h) fun l _ h => h.1) fun _ m₄ h => ?_
      obtain ⟨rfl, hargv⟩ := h
      refine ⟨BitVec.add_zero e, ⟨⟨fun k hk => ?_, fun k hk hge => ?_⟩, ?_, ?_⟩, ?_⟩
      · rw [← R.done k hk]
        refine le32_eq fun j hj => ?_
        rw [seen_overlay (by omega) (by omega), if_neg (by omega), seen_overlay (by omega) (by omega),
          if_neg (by omega)]
      · rw [← R.rest k hk hge, seen_overlay (by omega) (by omega), if_neg (by omega),
          seen_overlay (by omega) (by omega), if_neg (by omega)]
      · refine le32_bytes fun j hj => ?_
        rw [seen_overlay (by omega) (by omega), if_neg (by omega), seen_overlay (by omega) (by omega),
          if_pos (by omega), Nat.add_sub_cancel_left]
      · refine le32_bytes fun j hj => ?_
        rw [seen_overlay (by omega) (by omega), if_pos (by omega), Nat.add_sub_cancel_left]
      -- what was not refused: the count, the pointer to the block, and the block
      · rintro x ⟨i, hi, rfl⟩
        refine user_ok.mp ?_
        by_cases hlt : i < 4
        · have hthrough := hargc i hlt
          rwa [add_ofNat, Nat.zero_add] at hthrough
        · by_cases hlt' : i < 8
          · have hthrough := hargv (i - 4) (by omega)
            rwa [add_ofNat, Nat.add_sub_cancel' (by omega)] at hthrough
          · have hthrough := hcopied (i - 8) (by omega)
            rwa [add_ofNat, Nat.add_sub_cancel' (by omega)] at hthrough

/-! ## The memory in between -/

theorem fresh_low {x : Word} (hx : x.toNat < 2 ^ 31) : fresh g m x = m x := if_pos (.inl hx)

theorem fresh_congr {x : Word} (h : m x = m' x) : fresh g m x = fresh g m' x := by
  unfold fresh
  rw [h]

/-- The segments do not touch the address. -/
theorem loaded_apart {eh : Header} {x : Word} : ∀ {k : Nat},
    (∀ i < k, (programHeader d eh i).type = 1 → ¬InSegment d (programHeader d eh i) x) →
    loaded d eh k m x = m x := by
  intro k
  induction k with
  | zero => exact fun _ => rfl
  | succ k ih =>
    intro h
    have hk := ih fun i hi => h i (Nat.lt_succ_of_lt hi)
    unfold loaded
    split
    · rename_i htype
      have hout := h k (Nat.lt_succ_self k) htype
      rw [← hk]
      unfold segmentIn
      rw [overlay_off fun i hi he => hout (.inr ⟨i, hi, he⟩),
        overlay_off fun i hi he => hout (.inl ⟨i, hi, he⟩)]
    · exact hk

/-- Where two memories are the same, they are after the loading. -/
theorem loaded_congr {eh : Header} {x : Word} {k : Nat} (h : m x = m' x) :
    loaded d eh k m x = loaded d eh k m' x := by
  induction k with
  | zero => exact h
  | succ k ih =>
    unfold loaded
    split
    · unfold segmentIn overlay
      simp only [ih]
    · exact ih

theorem wp_inMemory {α : Type} {x : Mem α} {Q : α → Bytes → Prop} {E : Leave → Bytes → Prop}
    (h : wp x Q E s.bus.mem) :
    wp (inMemory x) (fun a s' => Q a s'.bus.mem) (fun l s' => E l s'.bus.mem) s := by
  unfold wp inMemory at *
  cases hx : x s.bus.mem with
  | ok a m =>
    rw [hx] at h
    exact h
  | error l m =>
    rw [hx] at h
    exact h

/-! ## The arguments arrive

The buffer is in kernel memory when the old address space is cleared, and is copied to the new
stack when the program has been loaded. In between segments are loaded, so nothing of the file may
lie where the buffer is; that is a hypothesis here. The pointers in the array are moved by as much
as the block is. -/

/-- What a program finds at its stack pointer: `m` is the memory that the arguments were in. -/
structure Arrived (g : Config) (m : Bytes) (args : List (Word × Nat)) (m' : Bytes) (esp : Word) :
    Prop where
  aligned : esp.toNat % 16 = 0
  argc : wordAt m' esp = BitVec.ofNat 32 args.length
  argv : wordAt m' (esp + 4#32) = esp + 8#32
  null : wordAt m' (esp + 8#32 + 4#32 * BitVec.ofNat 32 args.length) = 0
  /-- each pointer is to a copy of its string -/
  copies : ∀ i (h : i < args.length), ∀ j ≤ args[i].2,
    seen m' (wordAt m' (esp + 8#32 + 4#32 * BitVec.ofNat 32 i)) j = seen m args[i].1 j
  /-- the copies are above the pointers -/
  above : ∀ i < args.length, esp.toNat + 8 + 4 * (args.length + 1) ≤
    (wordAt m' (esp + 8#32 + 4#32 * BitVec.ofNat 32 i)).toNat
  /-- and each is above the ones before it -/
  ordered : ∀ k i (h : k < args.length), k < i → i < args.length →
    (wordAt m' (esp + 8#32 + 4#32 * BitVec.ofNat 32 k)).toNat + (args[k].2 + 1) ≤
      (wordAt m' (esp + 8#32 + 4#32 * BitVec.ofNat 32 i)).toNat
  pointers_below : esp.toNat + 8 + 4 * (args.length + 1) ≤ (userStack g).toNat
  copies_below : ∀ i (h : i < args.length),
    (wordAt m' (esp + 8#32 + 4#32 * BitVec.ofNat 32 i)).toNat + (args[i].2 + 1) ≤
      (userStack g).toNat

/-- The pointers in the buffer have become those on the stack, and what they point to has moved with
them. -/
theorem OnStack.arrived {m₁ m₂ : Bytes} {e : Word} (S : OnStack u args.length m₂ e m')
    (G : Gathered u args m m₁) (P : Placed g u.size e) (hsize : u.size.toNat = total args)
    (hsame : ∀ k < u.size.toNat, seen m₂ u.start k = seen m₁ u.start k) :
    Arrived g m args m' e := by
  have hstack := (userStack g).isLt
  have hbelow := P.below
  have hhigh := P.high
  have hzero : place args 0 ≤ total args := place_le_total (Nat.zero_le _)
  rw [place_zero] at hzero
  have hword : ∀ i, wordAt m' (e + 8#32 + 4#32 * BitVec.ofNat 32 i) =
      le32 (seen m' e) (8 + 4 * i) := by
    intro i
    rw [four_mul_ofNat, ← wordAt_add]
    exact congrArg _ (add_ofNat e 8 (4 * i))
  -- `place` counts from the block, the pointer from the stack: the two words below make 8
  have hpointer : ∀ i, i < args.length → wordAt m' (e + 8#32 + 4#32 * BitVec.ofNat 32 i) =
      e + BitVec.ofNat 32 (8 + place args i) := by
    intro i hi
    have hoffset : le32 (seen m₂ u.start) (4 * i) = BitVec.ofNat 32 (place args i) := by
      rw [← G.filled.pointers i hi]
      exact le32_eq fun j hj => hsame _ (by omega)
    rw [hword, S.relocated.done i hi, hoffset, BitVec.add_comm, add_ofNat]
  have hat : ∀ i, i < args.length →
      (wordAt m' (e + 8#32 + 4#32 * BitVec.ofNat 32 i)).toNat = e.toNat + 8 + place args i := by
    intro i hi
    have hle : place args i ≤ total args := place_le_total (Nat.le_of_lt hi)
    rw [hpointer i hi, toNat_offset (by omega), Nat.add_assoc]
  refine ⟨P.aligned, ?_, ?_, ?_, fun i hi j hj => ?_, fun i hi => ?_, fun k i hk hki hi => ?_, ?_,
    fun i hi => ?_⟩
  · exact S.argc
  · exact (wordAt_add m' e 4).trans S.argv
  · rw [hword, ← G.null]
    unfold le32
    have hnull : ∀ j < 4, seen m' e (8 + 4 * args.length + j) =
        seen m₁ u.start (4 * args.length + j) := fun j hj => by
      rw [Nat.add_assoc, S.relocated.rest _ (by omega) (by omega), hsame _ (by omega)]
    have h₀ : seen m' e (8 + 4 * args.length) = seen m₁ u.start (4 * args.length) :=
      hnull 0 (by decide)
    rw [h₀, hnull 1 (by decide), hnull 2 (by decide), hnull 3 (by decide)]
  · have hend := place_add_le hi
    have hstart : place args 0 ≤ place args i := place_le_place (Nat.zero_le i) hi.le
    rw [place_zero] at hstart
    rw [hpointer i hi, seen_add, Nat.add_assoc, S.relocated.rest _ (by omega) (by omega),
      hsame _ (by omega)]
    exact G.filled.strings i hi hi (by omega) j hj
  · have hstart : place args 0 ≤ place args i := place_le_place (Nat.zero_le i) hi.le
    rw [place_zero] at hstart
    rw [hat i hi]
    omega
  · have hnext : place args (k + 1) ≤ place args i := place_le_place hki (Nat.le_of_lt hi)
    rw [place_succ hk] at hnext
    rw [hat k hk, hat i hi]
    omega
  · omega
  · have hend := place_add_le hi
    rw [hat i hi]
    omega

/-- Where the program begins, and with what: `m` is the memory that it was started from. -/
structure Begins (g : Config) (refused : Word → Bool) (u : Buffer) (d : Device)
    (args : List (Word × Nat)) (m m' : Bytes) (entry esp : Word) : Prop where
  entry : entry = (header d).entry
  accepted : Accepted d
  segments : ∀ i < (header d).phentnum.toNat,
    Readable d (header d) i ∧ Served refused d (header d) i
  placed : Placed g u.size esp
  arrived : Arrived g m args m' esp
  served : ∀ x, InBlock u esp x → refused x = false
  mem : ∀ x, ¬InBlock u esp x → ¬u.Has x →
    m' x = loaded d (header d) (header d).phentnum.toNat (fresh g m) x

/-- How `exec` ends for a process that has passed these arguments. -/
theorem wp_execAt {start : Word} (A : Passed refused s.bus.mem argv args)
    (hsize : total args + 2 ^ 31 + 32 < (userStack g).toNat)
    (hkernel : start.toNat + total args ≤ 2 ^ 31)
    (P : Apart ⟨start, BitVec.ofNat 32 (total args)⟩ argv args)
    (hsegments : ∀ i < (header d).phentnum.toNat, (programHeader d (header d) i).type = 1 →
      ∀ x, InSegment d (programHeader d (header d) i) x →
        ¬Buffer.Has ⟨start, BitVec.ofNat 32 (total args)⟩ x) :
    wp (execAt g refused start argv d)
      (fun r s' => r = Sys.failed ∧ ¬Accepted d ∧ s'.bus.mem = s.bus.mem)
      (fun l s' => l ≠ .overrun ∧ ∀ entry esp, l = .user entry esp →
        Begins g refused ⟨start, BitVec.ofNat 32 (total args)⟩ d args s.bus.mem s'.bus.mem entry esp)
      s := by
  have hstack := (userStack g).isLt
  have htotal : (BitVec.ofNat 32 (total args)).toNat = total args := by
    rw [BitVec.toNat_ofNat]
    omega
  have hzero : place args 0 ≤ total args := place_le_total (Nat.zero_le _)
  rw [place_zero] at hzero
  have Pl := @placed g (BitVec.ofNat 32 (total args)) (by omega)
  unfold execAt
  rw [wp_bind]
  refine wp_mono (wp_inMemory (wp_measure A)) (fun r s₁ h => ?_) fun _ _ h => h.elim
  obtain ⟨argc, sz⟩ := r
  obtain ⟨rfl, hmem₁, hu⟩ := h
  simp only at hu
  simp only [hu]
  refine wp_seq (wp_mono wp_readHeader (fun _ _ h => h) fun _ _ h => h.elim) fun r s₂ h => ?_
  obtain ⟨rfl, hsome, hnone⟩ := h
  cases r with
  | none => exact ⟨rfl, hnone rfl, hmem₁⟩
  | some eh =>
    obtain ⟨rfl, hacc⟩ := hsome eh rfl
    simp only
    rw [wp_bind]
    refine wp_mono (wp_inMemory (wp_gather (hmem₁ ▸ A) P (.inl htotal.ge))) (fun _ s₃ G => ?_)
      fun l _ h => absurd h.2 (Nat.not_lt.mpr htotal.ge)
    rw [hmem₁] at G
    rw [reset, wp_bind, wp_modify, wp_bind]
    refine wp_mono wp_load (fun entry s₄ h => ?_) fun l _ h => ?_
    case refine_2 =>
      obtain ⟨rfl, -⟩ | ⟨rfl, -⟩ := h
      · exact ⟨by simp, by simp⟩
      · exact ⟨by simp, by simp⟩
    obtain ⟨hentry, hall, hmem₄, -⟩ := h
    -- the buffer is in kernel memory: neither `reset` nor the segments touch it
    have hsame : ∀ k < (BitVec.ofNat 32 (total args)).toNat,
        seen s₄.bus.mem start k = seen s₃.bus.mem start k := by
      intro k hk
      have hin : Buffer.Has ⟨start, BitVec.ofNat 32 (total args)⟩ (start + BitVec.ofNat 32 k) :=
        (has_offset _ (by omega)).mpr hk
      have hlow : (start + BitVec.ofNat 32 k).toNat < 2 ^ 31 := by
        rw [toNat_offset (by omega)]
        omega
      unfold seen
      rw [hmem₄, loaded_apart fun i hi htype hx => hsegments i hi htype _ hx hin]
      exact fresh_low hlow
    have hfit : 4 * (args.length + 1) ≤ (BitVec.ofNat 32 (total args)).toNat := by
      rw [htotal]
      exact hzero
    rw [wp_bind]
    refine wp_mono (wp_inMemory (wp_and (wp_pushBuffer Pl hfit (by rw [htotal]; omega))
      (outside_push Pl hfit s₄.bus.mem fun _ _ => rfl))) (fun esp s₅ h => ?_) fun l _ h => ?_
    case refine_2 =>
      obtain ⟨rfl, -⟩ := h
      exact ⟨by simp, by simp⟩
    obtain ⟨⟨rfl, hpushed, hserved⟩, hout⟩ := h
    refine ⟨by simp, fun entry' esp hl => ?_⟩
    cases hl
    refine ⟨hentry, hacc, hall, Pl, hpushed.arrived G Pl htotal hsame, hserved, fun x hx hno => ?_⟩
    rw [hout x hx, hmem₄]
    exact loaded_congr (fresh_congr (G.filled.frame x hno))

/-- The arguments of a program that is started are at its stack pointer, in order and intact, and no
access through the buffer leaves it. The buffer is in kernel memory, and no segment of the file is
loaded over it. -/
theorem arguments_arrive (g : Config) (refused : Word → Bool) (start argv : Word) (d : Device)
    (s : State) (args : List (Word × Nat)) (A : Passed refused s.bus.mem argv args)
    (hsize : total args + 2 ^ 31 + 32 < (userStack g).toNat)
    (hkernel : start.toNat + total args ≤ 2 ^ 31)
    (P : Apart ⟨start, BitVec.ofNat 32 (total args)⟩ argv args)
    (hsegments : ∀ i < (header d).phentnum.toNat, (programHeader d (header d) i).type = 1 →
      ∀ x, InSegment d (programHeader d (header d) i) x →
        ¬Buffer.Has ⟨start, BitVec.ofNat 32 (total args)⟩ x) :
    wp (execAt g refused start argv d) (fun _ _ => True)
      (fun l s' => l ≠ .overrun ∧ ∀ entry esp, l = .user entry esp →
        Arrived g s.bus.mem args s'.bus.mem esp) s :=
  wp_mono (wp_execAt A hsize hkernel P hsegments) (fun _ _ _ => trivial) fun _ _ h =>
    ⟨h.1, fun entry esp hl => (h.2 entry esp hl).arrived⟩

/-- Two arguments, and a file of four bytes. The program is started, and finds them. -/
theorem arguments_arrive_two : ∃ s',
    execAt ⟨0xfee00000, 0xfec00000⟩ (fun _ => false) 0x00200000#32 0x80000000#32
      (smallFile 1 0x80000000 4) { noTables with bus := ⟨repeated 2 3, [], []⟩ } =
        .error (.user 0x80000000#32 0xfebfffe0#32) s' ∧
    Arrived ⟨0xfee00000, 0xfec00000⟩ (repeated 2 3) (repeatedArgs 2 3) s'.bus.mem 0xfebfffe0#32 := by
  have hruns : testStop (execAt ⟨0xfee00000, 0xfec00000⟩ (fun _ => false) 0x00200000#32 0x80000000#32
      (smallFile 1 0x80000000 4)) (fun l _ => decide (l = .user 0x80000000#32 0xfebfffe0#32))
      { noTables with bus := ⟨repeated 2 3, [], []⟩ } = true := by decide +kernel
  obtain ⟨l, s', hx, hl⟩ := testStop_iff.mp hruns
  obtain rfl := of_decide_eq_true hl
  have hu : (0x00200000#32).toNat + (BitVec.ofNat 32 (total (repeatedArgs 2 3))).toNat ≤ 2 ^ 31 := by
    decide
  have harrive := arguments_arrive ⟨0xfee00000, 0xfec00000⟩ (fun _ => false) 0x00200000#32
    0x80000000#32 (smallFile 1 0x80000000 4) { noTables with bus := ⟨repeated 2 3, [], []⟩ }
    (repeatedArgs 2 3) (repeated_passed (by decide) (by decide)) (by decide) (by decide)
    (repeated_apart (by decide) (by decide) hu) fun i hi htype x hx => ?_
  · exact ⟨s', hx, (wp_error harrive hx).2 _ _ rfl⟩
  · refine not_has_high hu ?_
    have hfree : SegmentFree ⟨0xfee00000, 0xfec00000⟩ (smallFile 1 0x80000000 4)
        (programHeader (smallFile 1 0x80000000 4) (header (smallFile 1 0x80000000 4)) 0) := by decide
    have hphentnum : (header (smallFile 1 0x80000000 4)).phentnum.toNat = 1 := by decide
    obtain rfl : i = 0 := by omega
    have hno := segmentFree_iff.mp hfree x hx
    unfold Protected at hno
    omega

end OsKernel.Elf
