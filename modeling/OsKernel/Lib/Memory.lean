import Mathlib.Logic.Function.Basic
import OsKernel.Lib.Bytes
import OsKernel.Lib.Prog

/-!
# Programs over memory

A memory seen from an address on, so that a statement about a piece of memory is one about
offsets; words and strings in it; and the loop that copies bytes one after the other. Every
access goes through a *window*, which says what addresses are let through and how a program
stops otherwise.

A window is how one program runs in two address spaces. A process is stopped outside of its
pages, the kernel is not, and the code that copies from one to the other is `copy w w'`. A
word is four accesses, so it may be let through in part; what was stored before the program
stopped stays.
-/

set_option autoImplicit false

namespace OsKernel.Lib

open Prog

/-! ## Memory from an address on -/

/-- The bytes from `a` on. -/
def seen (m : Bytes) (a : BitVec 32) : Nat → Byte := fun k => m (a + BitVec.ofNat 32 k)

variable {m m' : Bytes} {a b v : BitVec 32} {n o k : Nat} {f g : Nat → Byte}

theorem add_ofNat (a : BitVec 32) (o k : Nat) :
    a + BitVec.ofNat 32 o + BitVec.ofNat 32 k = a + BitVec.ofNat 32 (o + k) := by
  rw [BitVec.add_assoc, BitVec.ofNat_add]

theorem seen_add (m : Bytes) (a : BitVec 32) (o k : Nat) :
    seen m (a + BitVec.ofNat 32 o) k = seen m a (o + k) :=
  congrArg m (add_ofNat a o k)

/-- A range was written, seen from an address below it. -/
theorem seen_overlay (h : o + n ≤ 2 ^ 32) (hk : k < 2 ^ 32) :
    seen (overlay m (a + BitVec.ofNat 32 o) n f) a k =
      if o ≤ k ∧ k < o + n then f (k - o) else seen m a k := by
  by_cases hn : n = 0
  · subst hn
    rw [overlay_zero, if_neg (by omega)]
  have ho := toNat_sub_add (a := a) (b := a + BitVec.ofNat 32 k) (n := o) (by omega)
  rw [toNat_sub_self_add hk] at ho
  unfold overlay
  by_cases hlt : k < o
  · rw [if_pos hlt] at ho
    rw [if_neg (by omega)]
    exact if_neg (by rw [ho]; omega)
  · rw [if_neg hlt] at ho
    by_cases hin : k < o + n
    · rw [if_pos (by omega), ← ho]
      exact if_pos (by rw [ho]; omega)
    · rw [if_neg (by omega)]
      exact if_neg (by rw [ho]; omega)

/-- A range that grows by one byte. -/
theorem overlay_succ (h : n < 2 ^ 32) :
    overlay (overlay m a n f) (a + BitVec.ofNat 32 n) 1 (fun _ => f n) = overlay m a (n + 1) f := by
  rw [overlay_overlay (by omega)]
  refine overlay_congr fun i hi => ?_
  by_cases hlt : i < n
  · exact if_pos hlt
  · obtain rfl : i = n := by omega
    exact if_neg hlt

theorem overlay_one (m : Bytes) (a : BitVec 32) (x : Byte) :
    overlay m a 1 (fun _ => x) = Function.update m a x := by
  funext b
  by_cases hb : b = a
  · have hat := overlay_at (m := m) (a := a) (f := fun _ => x) Nat.zero_lt_one (by decide)
    rw [BitVec.add_zero] at hat
    rw [hb, hat, Function.update_self]
  · rw [Function.update_of_ne hb]
    refine overlay_off fun i hi he => hb ?_
    obtain rfl : i = 0 := by omega
    rw [he]
    exact BitVec.add_zero a

/-! ## Words -/

/-- The bytes of a word, the lowest first. -/
def byteOf (v : BitVec 32) (i : Nat) : Byte := v.extractLsb' (8 * i) 8

/-- The word at an address. -/
def wordAt (m : Bytes) (a : BitVec 32) : BitVec 32 := le32 (seen m a) 0

theorem wordAt_add (m : Bytes) (a : BitVec 32) (o : Nat) :
    wordAt m (a + BitVec.ofNat 32 o) = le32 (seen m a) o := by
  unfold wordAt le32
  simp only [seen_add, Nat.zero_add, Nat.add_zero]

/-- A word whose bytes are in place. -/
theorem le32_bytes (h : ∀ i < 4, f (o + i) = byteOf v i) : le32 f o = v := by
  have h0 : f o = byteOf v 0 := h 0 (by decide)
  unfold le32
  rw [h0, h 1 (by decide), h 2 (by decide), h 3 (by decide)]
  unfold byteOf
  ext i hi
  simp only [BitVec.getElem_append, BitVec.getElem_extractLsb']
  repeat' split
  all_goals
    rw [BitVec.getLsbD_eq_getElem (by omega)]
    congr 1
    omega

theorem byteOf_le32 (f : Nat → Byte) {i : Nat} (hi : i < 4) : byteOf (le32 f 0) i = f i := by
  unfold byteOf le32
  rcases (by omega : i = 0 ∨ i = 1 ∨ i = 2 ∨ i = 3) with rfl | rfl | rfl | rfl <;>
    (ext j hj; simp only [BitVec.getElem_extractLsb', BitVec.getLsbD_append]; grind)

theorem byteOf_le32_add {i : Nat} (hi : i < 4) : byteOf (le32 f o) i = f (o + i) := by
  have hword : le32 f o = le32 (fun k => f (o + k)) 0 := by
    unfold le32
    simp only [Nat.zero_add, Nat.add_zero]
  rw [hword, byteOf_le32 _ hi]

theorem le32_eq (h : ∀ i < 4, f (o + i) = g (o + i)) : le32 f o = le32 g o := by
  have h0 : f o = g o := h 0 (by decide)
  unfold le32
  rw [h0, h 1 (by decide), h 2 (by decide), h 3 (by decide)]

/-! ## Strings -/

/-- A string of `n` bytes, and its end. -/
structure HasString (m : Bytes) (a : BitVec 32) (n : Nat) : Prop where
  lt : n < 2 ^ 32
  body : ∀ j < n, seen m a j ≠ 0
  nul : seen m a n = 0

/-- A string behind its first byte. -/
theorem HasString.tail (h : HasString m a (n + 1)) : HasString m (a + 1#32) n where
  lt := Nat.lt_of_succ_lt h.lt
  body j hj := by
    have hb := h.body (1 + j) (by omega)
    rwa [← seen_add] at hb
  nul := by
    have hn := h.nul
    rwa [Nat.add_comm, ← seen_add] at hn

/-! ## Windows

Accesses that are checked: a window lets some addresses through, and an access at another one
stops the program. The rules are for the loads, stores and copies that go through a window, one
byte after the other, so a copy may stop in the middle with the bytes before already there. -/

variable {ε : Type}

/-- The addresses that are let through, and what happens at another. -/
structure Window (ε : Type) where
  ok : BitVec 32 → Bool
  stop : ε

namespace Window

def load (w : Window ε) (a : BitVec 32) : Prog ε Bytes Byte := do
  let m ← get
  if w.ok a = true then pure (m a) else throw w.stop

def store (w : Window ε) (a : BitVec 32) (v : Byte) : Prog ε Bytes Unit :=
  if w.ok a = true then modify fun m => overlay m a 1 fun _ => v else throw w.stop

def loadWord (w : Window ε) (a : BitVec 32) : Prog ε Bytes (BitVec 32) := do
  let b₀ ← w.load a
  let b₁ ← w.load (a + 1#32)
  let b₂ ← w.load (a + 2#32)
  let b₃ ← w.load (a + 3#32)
  pure (b₃ ++ b₂ ++ b₁ ++ b₀)

def storeWord (w : Window ε) (a v : BitVec 32) : Prog ε Bytes Unit :=
  forI 4 fun i => w.store (a + BitVec.ofNat 32 i) (byteOf v i)

/-- `n` bytes, from the first to the last. -/
def copy (w w' : Window ε) (dest src : BitVec 32) (n : Nat) : Prog ε Bytes Unit :=
  forI n fun i => do
    let v ← w.load (src + BitVec.ofNat 32 i)
    w'.store (dest + BitVec.ofNat 32 i) v

variable {w w' : Window ε} {dest src : BitVec 32}

/-- All `n` bytes from `a` on are let through. -/
def Through (w : Window ε) (a : BitVec 32) (n : Nat) : Prop :=
  ∀ i < n, w.ok (a + BitVec.ofNat 32 i) = true

theorem wp_load {Q : Byte → Bytes → Prop} {E : ε → Bytes → Prop}
    (hok : w.ok a = true → Q (m a) m) (hno : w.ok a = false → E w.stop m) :
    wp (w.load a) Q E m := by
  unfold load
  rw [wp_bind, wp_get, wp_ite]
  split
  · rename_i h
    exact hok h
  · rename_i h
    exact hno (Bool.eq_false_iff.mpr h)

theorem wp_store {Q : Unit → Bytes → Prop} {E : ε → Bytes → Prop} {x : Byte}
    (hok : w.ok a = true → Q () (overlay m a 1 fun _ => x)) (hno : w.ok a = false → E w.stop m) :
    wp (w.store a x) Q E m := by
  unfold store
  rw [wp_ite]
  split
  · rename_i h
    exact hok h
  · rename_i h
    exact hno (Bool.eq_false_iff.mpr h)

/-- A word is read if all its bytes are let through. -/
theorem wp_loadWord : wp (w.loadWord a)
    (fun r m' => r = wordAt m a ∧ m' = m ∧ w.Through a 4)
    (fun l m' => l = w.stop ∧ m' = m ∧ ¬w.Through a 4) m := by
  have hno : ∀ i, i < 4 → w.ok (a + BitVec.ofNat 32 i) = false → ¬w.Through a 4 := by
    intro i hi hw h
    rw [h i hi] at hw
    cases hw
  have ha : a = a + BitVec.ofNat 32 0 := (BitVec.add_zero a).symm
  unfold loadWord
  rw [wp_bind]
  refine wp_load (fun h₀ => ?_) fun h => ⟨rfl, rfl, hno 0 (by decide) (ha ▸ h)⟩
  rw [wp_bind]
  refine wp_load (fun h₁ => ?_) fun h => ⟨rfl, rfl, hno 1 (by decide) h⟩
  rw [wp_bind]
  refine wp_load (fun h₂ => ?_) fun h => ⟨rfl, rfl, hno 2 (by decide) h⟩
  rw [wp_bind]
  refine wp_load (fun h₃ => ?_) fun h => ⟨rfl, rfl, hno 3 (by decide) h⟩
  refine ⟨?_, rfl, fun i hi => ?_⟩
  · unfold wordAt le32 seen
    rw [← ha]
  · match i, hi with
    | 0, _ => exact ha ▸ h₀
    | 1, _ => exact h₁
    | 2, _ => exact h₂
    | 3, _ => exact h₃

/-- Consecutive bytes are stored as far as they are let through. -/
theorem wp_stores {n : Nat} {f : Nat → Byte}
    {body : Nat → Prog ε Bytes Unit} {E : ε → Bytes → Prop}
    (hbody : ∀ i < n, w.Through a i → wp (body i)
      (fun _ m' => w.ok (a + BitVec.ofNat 32 i) = true ∧ m' = overlay m a (i + 1) f) E
      (overlay m a i f)) :
    wp (forI n body) (fun _ m' => m' = overlay m a n f ∧ w.Through a n) E m := by
  refine wp_forI (I := fun i m' => m' = overlay m a i f ∧ w.Through a i) (fun i hi m' hm' => ?_)
    ⟨overlay_zero.symm, fun i hi => absurd hi (Nat.not_lt_zero i)⟩
  obtain ⟨rfl, hthrough⟩ := hm'
  refine wp_mono (hbody i hi hthrough) (fun _ m₂ h => ⟨h.2, fun j hj => ?_⟩) fun _ _ h => h
  rcases Nat.lt_or_eq_of_le (Nat.le_of_lt_succ hj) with hlt | rfl
  · exact hthrough j hlt
  · exact h.1

theorem wp_storeWord : wp (w.storeWord a v)
    (fun _ m' => m' = overlay m a 4 (byteOf v) ∧ w.Through a 4)
    (fun l _ => l = w.stop ∧ ¬w.Through a 4) m := by
  refine wp_stores fun i hi _ => wp_store (fun h => ⟨h, ?_⟩) fun h => ⟨rfl, fun hall => ?_⟩
  · exact overlay_succ (by omega)
  · rw [hall i hi] at h
    cases h

/-- The bytes arrive, if what is stored to is not what is read. -/
theorem wp_copy (hn : n ≤ 2 ^ 32) (hapart : ∀ i < n, ∀ j < n,
    w'.ok (dest + BitVec.ofNat 32 j) = true → src + BitVec.ofNat 32 i ≠ dest + BitVec.ofNat 32 j) :
    wp (copy w w' dest src n)
      (fun _ m' => m' = overlay m dest n (seen m src) ∧ w'.Through dest n)
      (fun l _ => (l = w.stop ∧ ¬w.Through src n) ∨ (l = w'.stop ∧ ¬w'.Through dest n)) m := by
  refine wp_stores fun i hi hthrough => ?_
  have hread : overlay m dest i (seen m src) (src + BitVec.ofNat 32 i) = seen m src i :=
    overlay_off fun j hj => hapart i hi j (Nat.lt_trans hj hi) (hthrough j hj)
  rw [wp_bind]
  refine wp_load (fun _ => ?_) fun h => .inl ⟨rfl, fun hall => ?_⟩
  · rw [hread]
    refine wp_store (fun h => ⟨h, overlay_succ (by omega)⟩) fun h => .inr ⟨rfl, fun hall => ?_⟩
    rw [hall i hi] at h
    cases h
  · rw [hall i hi] at h
    cases h

end Window

end OsKernel.Lib
