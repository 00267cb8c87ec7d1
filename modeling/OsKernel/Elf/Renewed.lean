import OsKernel.Lib.Simulation
import OsKernel.Elf.Found

/-!
# The old memory and the new one

What becomes of the memory of a process while it starts a program: measuring and gathering the
arguments changes nothing in it, `reset` makes it zeros, and the loader stores the segments of
the file in it. A page that a store needs comes with that store.

The statements are in terms of `Holds` throughout, so that they read as in the flat versions:
this memory before, that memory after. `Unchanged` is for the first part, and goes through the
loops by the rules of `Lib/Simulation.lean` for programs that keep something. The gathering
stores, but only through the buffer, and the buffer is the kernel's (`OnHeap`). Neither part
needs to know what the arguments are. A loop over a vector that has no end would go around the
address space, which it cannot, as the first page is in the way: `wp_measure` has from that
how many arguments there can be at most.

The loader stores what its transfers have written, range by range. `patched` is the memory
with some of the ranges in it, and by `patched_covers` they make up the segment, whatever
order they came in.
-/

set_option autoImplicit false

namespace OsKernel.Elf.Paged

open Lib Prog
open Vmm
open Block (Device)

variable {T : Setting} {m m' k : Bytes} {w : World} {va v : Word} {u : Buffer} {α : Type}

/-! ## The arguments are measured and gathered

This part of `exec` runs in the old address space and changes nothing in it. The reads may run the
page-fault handler, as an argument may be in a page that is not there yet; that gives the process
a page and no byte a different value. -/

/-- Nothing changes of what is found, if the program returns. -/
abbrev Unchanged (T : Setting) (m : Bytes) (x : Run α) : Prop :=
  Keeps (fun w => Holds T m w.machine) End.NotStarted x

theorem unchanged_loadByte (va : Word) : Unchanged T m (loadByte false va) :=
  fun _ H => holds_loadByte H

theorem unchanged_loadWord (va : Word) : Unchanged T m (loadWord va) :=
  (unchanged_loadByte _).bind fun _ => (unchanged_loadByte _).bind fun _ =>
    (unchanged_loadByte _).bind fun _ => (unchanged_loadByte _).bind fun _ => .pure _

theorem unchanged_strlenLoop : ∀ (fuel : Nat) (str n : Word),
    Unchanged T m (strlenLoop fuel str n)
  | 0, _, _ => .throw (notStarted_leave fun _ _ h => by cases h)
  | fuel + 1, str, n => by
    refine (unchanged_loadByte str).bind fun b => ?_
    split
    · exact unchanged_strlenLoop fuel _ _
    · exact .pure n

theorem unchanged_strlen (str : Word) : Unchanged T m (strlen str) := unchanged_strlenLoop _ _ _

/-- A buffer on the kernel's heap. -/
def OnHeap (u : Buffer) : Prop :=
  0x100000 ≤ u.start.toNat ∧ u.start.toNat + u.size.toNat ≤ VMM_FRAMES.toNat

theorem OnHeap.own (h : OnHeap u) (hva : u.Has va) : Own va := by
  have hin : (va - u.start).toNat < u.size.toNat := hva
  have hframes : VMM_FRAMES.toNat = 6291456 := by decide
  obtain ⟨hlow, hhigh⟩ := h
  have hlt := va.isLt
  rw [BitVec.toNat_sub] at hin
  unfold Own
  omega

theorem unchanged_storeIn (hu : OnHeap u) (va : Word) (v : Byte) :
    Unchanged T m (storeIn u va v) := fun w H => by
  unfold storeIn
  split
  · rename_i hva
    refine wp_mono (wp_storeByte_own H (hu.own hva)) (fun _ w' h => ?_) fun _ _ hf => hf.elim
    rw [h]
    exact H
  · exact notStarted_leave fun _ _ h => by cases h

theorem unchanged_gatherOne (hu : OnHeap u) (argv : Word) (i : Nat) (string : Word) :
    Unchanged T m (gatherOne u argv i string) := by
  refine (unchanged_loadWord _).bind fun str => ?_
  refine (unchanged_strlen str).bind fun len => ?_
  refine Keeps.bind (.forI fun j _ => ?_) fun _ => ?_
  · exact (unchanged_loadByte _).bind fun v => unchanged_storeIn hu _ v
  · exact Keeps.bind (.forI fun j _ => unchanged_storeIn hu _ _) fun _ => .pure _

/-- What has been gathered has room for the pointers. -/
theorem wp_gather (hu : OnHeap u) (argv : Word) {argc : Nat} (hargc : argc < 2 ^ 30)
    (H : Holds T m w.machine) :
    wp (gather u argv (BitVec.ofNat 32 argc))
      (fun _ w' => Holds T m w'.machine ∧ 4 * (argc + 1) ≤ u.size.toNat)
      (fun e _ => e.NotStarted) w := by
  unfold gather
  refine wp_seq (Keeps.foldI (fun i string => unchanged_gatherOne hu argv i string) w H)
    fun _ w₁ H₁ => ?_
  -- the last store is that of the null pointer, and the pointers are below it
  have hlast : wp (storeBytes (storeIn u) (u.start + 4#32 * BitVec.ofNat 32 argc) 0)
      (fun _ w' => Holds T m w'.machine ∧
        ∀ i < 4, u.Has (u.start + 4#32 * BitVec.ofNat 32 argc + BitVec.ofNat 32 i))
      (fun e _ => e.NotStarted) w₁ := by
    refine wp_forI (I := fun n (w' : World) => Holds T m w'.machine ∧
      ∀ i < n, u.Has (u.start + 4#32 * BitVec.ofNat 32 argc + BitVec.ofNat 32 i))
      (fun i hi w₂ h => ?_) ⟨H₁, fun i hi => absurd hi (Nat.not_lt_zero i)⟩
    by_cases hin : u.Has (u.start + 4#32 * BitVec.ofNat 32 argc + BitVec.ofNat 32 i)
    · refine wp_mono (unchanged_storeIn hu _ _ w₂ h.1) (fun _ w₃ H₃ => ⟨H₃, fun j hj => ?_⟩)
        fun _ _ he => he
      rcases Nat.lt_or_eq_of_le (Nat.le_of_lt_succ hj) with hlt | rfl
      · exact h.2 j hlt
      · exact hin
    · unfold storeIn
      rw [if_neg hin]
      exact notStarted_leave fun _ _ h => by cases h
  refine wp_mono hlast (fun _ w' h => ⟨h.1, ?_⟩) fun _ _ he => he
  have hthree := h.2 3 (by decide)
  rw [four_mul_ofNat, add_ofNat, has_offset u (by omega)] at hthree
  omega

section measure

variable (hfirst : ∀ va : Word, va.toNat < 0x1000 → ¬T.config.KernelAddr va)

include hfirst

/-- No word is read from the first page. -/
theorem wp_loadWord (H : Holds T m w.machine) :
    wp (loadWord va) (fun _ w' => Holds T m w'.machine ∧ 0x1000 ≤ va.toNat)
      (fun e _ => e.NotStarted) w := by
  by_cases hva : va.toNat < 0x1000
  · have hlow : va < 0x80000000#32 := by
      rw [BitVec.lt_def]
      have h0 : (0x80000000#32 : Word).toNat = 2147483648 := rfl
      omega
    unfold loadWord
    rw [wp_bind]
    exact wp_mono (wp_loadByte_nowhere H hlow (hfirst va hva)) (fun _ _ hf => hf.elim)
      fun _ _ he => he
  · exact wp_mono (unchanged_loadWord va w H) (fun _ _ h => ⟨h, Nat.not_lt.mp hva⟩) fun _ _ he => he

theorem wp_measureLoop (argv : Word) : ∀ (fuel i : Nat) (sz : Word) {w : World},
    Holds T m w.machine →
    wp (measureLoop argv fuel (BitVec.ofNat 32 i) sz)
      (fun r w' => Holds T m w'.machine ∧ ∃ k, r.1 = BitVec.ofNat 32 k ∧
        ∀ j, i ≤ j → j ≤ k → 0x1000 ≤ (argv + BitVec.ofNat 32 (4 * j)).toNat)
      (fun e _ => e.NotStarted) w
  | 0, _, _, _, _ => notStarted_leave fun _ _ h => by cases h
  | fuel + 1, i, sz, w, H => by
    unfold measureLoop
    refine wp_seq (wp_loadWord hfirst H) fun str w₁ h => ?_
    obtain ⟨H₁, hat⟩ := h
    rw [four_mul_ofNat] at hat
    split
    · refine wp_seq (unchanged_strlen str w₁ H₁) fun len w₂ H₂ => ?_
      have hone : BitVec.ofNat 32 i + 1#32 = BitVec.ofNat 32 (i + 1) := (BitVec.ofNat_add i 1).symm
      rw [hone]
      refine wp_mono (wp_measureLoop argv fuel (i + 1) _ H₂) (fun r w' h => ?_) fun _ _ he => he
      obtain ⟨H', k, hk, hall⟩ := h
      refine ⟨H', k, hk, fun j hij hjk => ?_⟩
      rcases Nat.lt_or_eq_of_le hij with hlt | rfl
      · exact hall j hlt hjk
      · exact hat
    · refine ⟨H₁, i, rfl, fun j hij hji => ?_⟩
      rw [Nat.le_antisymm hji hij]
      exact hat

/-- The pointers do not go around the address space, as the first page is in it. -/
theorem wp_measure (argv : Word) (H : Holds T m w.machine) :
    wp (measure argv) (fun r w' => Holds T m w'.machine ∧ ∃ k < 2 ^ 30, r.1 = BitVec.ofNat 32 k)
      (fun e _ => e.NotStarted) w := by
  refine wp_mono (wp_measureLoop hfirst argv (2 ^ 32) 0 0 H) (fun r w' h => ?_) fun _ _ he => he
  obtain ⟨H', k, hk, hall⟩ := h
  refine ⟨H', k, ?_, hk⟩
  by_contra hge
  have hlt := argv.isLt
  -- among so many pointers is one in the first page
  by_cases hsmall : argv.toNat < 0x1000
  · have h0 := hall 0 (Nat.le_refl 0) (Nat.zero_le k)
    rw [Nat.mul_zero, BitVec.add_zero] at h0
    omega
  · have h0 := hall ((2 ^ 32 - argv.toNat + 3) / 4) (Nat.zero_le _) (by omega)
    rw [BitVec.toNat_add, BitVec.toNat_ofNat] at h0
    omega

end measure

/-! ## The old memory goes -/

theorem wp_reset (H : Holds T m w.machine) (discard : Nat → Bool) :
    wp (onMachine (do K.assert (T.pd = (← K.getCR3)); Vmm.reset discard T.pd))
      (fun _ w' => Holds T (fun _ => 0) w'.machine ∧ w'.kernel = w.kernel)
      (fun e _ => e.NotStarted) w := by
  obtain ⟨S, h⟩ := H.space
  refine wp_onMachine ?_
  rw [wp_bind, K.wp_getCR3, wp_bind, K.wp_assert, if_pos H.cr3.symm]
  refine wp_mono (h.sound.clearPd_spec h.agrees h.live discard) (fun _ s' hpost => ?_)
    fun _ _ he => absurd trivial he.2
  obtain ⟨-, S', C⟩ := hpost
  have h' : Backed T s' S' := by
    refine ⟨C.sound, C.agrees, fun x hx i hi j hj => ?_, C.dirs.trans h.dirs⟩
    rw [C.dirs] at hx
    by_cases hxd : x = T.pd
    · rw [hxd, C.clear trivial i (by omega) j hj]
      exact T.κ.pte_priv i j
    · rw [(C.other trivial x hx hxd i (by omega)).2 j hj]
      exact h.low x hx i hi j hj
  refine ⟨h'.holds H h (C.regs.cr3.trans H.cr3) (fun va hu => ?_) fun x hx hne i hi l hl =>
    C.data trivial h.sound.shape hx hne hi hl, rfl⟩
  rw [C.data_self trivial (pdi_lt va) (pti_lt va)]
  unfold byteOf
  simp

/-! ## Stores of a transfer -/

/-- The process finds `m`, and the kernel has `k`. -/
abbrev InWorld (T : Setting) (k m : Bytes) (w : World) : Prop := Holds T m w.machine ∧ w.kernel = k

variable {rs : List (Word × Nat)} {n : Nat}

/-- The memory `m` after the ranges of `m'` have been stored. -/
def patched (m' m : Bytes) (rs : List (Word × Nat)) : Bytes := fun x =>
  if Touches rs x then m' x else m x

theorem patched_nil : patched m' m [] = m := funext fun _ => if_neg touches_nil

theorem patched_zero : patched m' m ((v, 0) :: rs) = patched m' m rs := by
  funext x
  unfold patched
  simp only [touches_cons, Nat.not_lt_zero, false_and, exists_false, false_or]

/-- One more byte of a range. -/
theorem patched_succ (n : Nat) :
    overlay (patched m' m ((v, n) :: rs)) (v + BitVec.ofNat 32 n) 1
      (fun _ => m' (v + BitVec.ofNat 32 n)) = patched m' m ((v, n + 1) :: rs) := by
  rw [overlay_one]
  funext x
  unfold patched
  simp only [touches_cons]
  by_cases hx : x = v + BitVec.ofNat 32 n
  · rw [hx, Function.update_self, if_pos (.inl ⟨n, Nat.lt_succ_self n, rfl⟩)]
  · rw [Function.update_of_ne hx]
    refine if_congr (or_congr_left ?_) rfl rfl
    constructor
    · rintro ⟨i, hi, he⟩
      exact ⟨i, Nat.lt_succ_of_lt hi, he⟩
    · rintro ⟨i, hi, he⟩
      refine ⟨i, Nat.lt_of_le_of_ne (Nat.le_of_lt_succ hi) fun hin => hx ?_, he⟩
      rw [he, hin]

/-- The ranges make up one range. -/
theorem patched_covers {g : Nat → Byte} (h : Covers rs v n) (hn : n ≤ 2 ^ 32) :
    patched (overlay m' v n g) m rs = overlay m v n g := by
  funext x
  unfold patched
  by_cases hx : Touches rs x
  · rw [if_pos hx]
    obtain ⟨i, hi, rfl⟩ := (h x).mp hx
    rw [overlay_at hi hn, overlay_at hi hn]
  · rw [if_neg hx]
    exact (overlay_off fun i hi he => hx ((h x).mpr ⟨i, hi, he⟩)).symm

theorem wp_storeRanges (H : InWorld T k m w) : ∀ {l : List (Word × Nat)},
    (∀ x, Touches l x → T.config.UserAddr x) →
    wp (storeRanges m' l) (fun _ => InWorld T k (patched m' m l)) (fun e _ => e.Starved) w
  | [], _ => by
    rw [patched_nil]
    exact H
  | r :: l, hu => by
    unfold storeRanges
    refine wp_seq (wp_storeRanges H (l := l) fun x hx => hu x (touches_cons.mpr (.inr hx)))
      fun _ w₁ H₁ => ?_
    refine wp_forI (I := fun i => InWorld T k (patched m' m ((r.1, i) :: l)))
      (fun i hi w₂ H₂ => ?_) (by rw [patched_zero]; exact H₁)
    refine wp_mono (wp_storeByte H₂.1 (hu _ (touches_cons.mpr (.inl ⟨i, hi, rfl⟩))))
      (fun _ w₃ h => ?_) fun _ _ he => he
    rw [patched_succ] at h
    exact ⟨h.1, h.2.trans H₂.2⟩

/-- What is read from a file, or zeroed, comes to the process. -/
theorem wp_toUser (H : InWorld T k m w) {x : Block.Transfer α} {r : α} {blocks : List Word}
    {g : Nat → Byte}
    (hx : x ⟨fun _ => 0, [], []⟩ = .ok r ⟨overlay (fun _ => 0) v n g, blocks, rs⟩)
    (hcovers : Covers rs v n) (hn : n ≤ 2 ^ 32)
    (hu : ∀ i < n, T.config.UserAddr (v + BitVec.ofNat 32 i)) :
    wp (toUser x) (fun _ => InWorld T k (overlay m v n g)) (fun e _ => e.Starved) w := by
  have hall : wp (do storeRanges (overlay (fun _ => 0) v n g) rs; pure r : Run α)
      (fun _ => InWorld T k (overlay m v n g)) (fun e _ => e.Starved) w := by
    refine wp_seq (wp_storeRanges H fun x hx => ?_) fun _ w' h => ?_
    · obtain ⟨i, hi, rfl⟩ := (hcovers x).mp hx
      exact hu i hi
    · rw [patched_covers hcovers hn] at h
      exact h
  unfold wp toUser
  rw [hx]
  exact hall

/-! ## The segments -/

variable {d : Device} {eh : Header}

theorem wp_inKernel {x : Exec α} {Q : α → World → Prop} {E : End → World → Prop}
    (h : wp x (fun r _ => Q r w) (fun l _ => E (.leave l) w)
      ⟨⟨fun _ => 0, [], []⟩, .empty, .empty, .empty⟩) : wp (inKernel x) Q E w := by
  unfold wp inKernel at *
  cases hx : x ⟨⟨fun _ => 0, [], []⟩, .empty, .empty, .empty⟩ with
  | ok r s =>
    rw [hx] at h
    exact h
  | error l s =>
    rw [hx] at h
    exact h

/-- One turn of the loop. -/
theorem wp_loadOne (H : InWorld T k m w) {i : Nat}
    (hu : (programHeader d eh i).type = 1 →
      ∀ x, InSegment d (programHeader d eh i) x → T.config.UserAddr x) :
    wp (loadOne d eh i)
      (fun _ => InWorld T k (if (programHeader d eh i).type = 1 then
        segmentIn d (programHeader d eh i) m else m))
      (fun e _ => e.NotStarted) w := by
  unfold loadOne
  rw [wp_bind]
  refine wp_inKernel (wp_readThing (by decide) (fun _ b hb => ?_) fun _ =>
    notStarted_leave fun _ _ h => by cases h)
  have hph : ProgramHeader.of b = programHeader d eh i := ProgramHeader.of_congr hb
  simp only [hph]
  generalize programHeader d eh i = ph at hu
  by_cases htype : ph.type = 1
  case neg =>
    rw [if_pos htype, if_neg htype]
    exact H
  rw [if_neg (not_not.mpr htype), if_pos htype]
  obtain ⟨cnt, blocks, stores, hrun, -, -, hcovers⟩ := Block.readAll_got (d := d)
    (s := ⟨fun _ => 0, [], []⟩) ph.offset ph.filesize ph.vaddr (Nat.lt_succ_self ph.filesize.toNat)
  refine wp_seq (wp_mono (wp_toUser H hrun (by rw [List.append_nil]; exact hcovers)
    (Nat.le_of_lt (Block.available_lt ph.offset ph.filesize))
    fun j hj => hu htype _ (.inl ⟨j, hj, rfl⟩)) (fun _ _ h => h) fun _ _ he => he.notStarted)
    fun _ w₁ H₁ => ?_
  refine wp_mono (wp_toUser H₁ (x := bzero (ph.vaddr + ph.filesize) (ph.memsize - ph.filesize)) rfl
    covers_single (Nat.le_trans (zeros_le_size _) (Nat.le_of_lt (BitVec.isLt _)))
    fun j hj => hu htype _ (.inr ⟨j, hj, rfl⟩)) (fun _ _ h => h) fun _ _ he => he.notStarted

theorem wp_load (H : InWorld T k m w)
    (hu : ∀ i < eh.phentnum.toNat, (programHeader d eh i).type = 1 →
      ∀ x, InSegment d (programHeader d eh i) x → T.config.UserAddr x) :
    wp (load d eh)
      (fun entry w' => entry = eh.entry ∧ InWorld T k (loaded d eh eh.phentnum.toNat m) w')
      (fun e _ => e.NotStarted) w := by
  unfold load
  exact wp_seq (wp_forI (I := fun i => InWorld T k (loaded d eh i m))
    (fun i hi w' H' => wp_loadOne H' (hu i hi)) H) fun _ w' H' => ⟨rfl, H'⟩

end OsKernel.Elf.Paged
