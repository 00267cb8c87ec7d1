import Mathlib.Algebra.GroupWithZero.Nat
import Mathlib.Logic.Function.Basic
import Mathlib.Data.List.Basic

/-!
# Things that are in one place at a time

A system holds things in *slots*, one thing each, and in *lines*, many in order. `Placed` says
that the contents of all slots and lines come from one map from things to places, so that
nothing is in two of them; the lemmas are the ways a thing can move. What moves is an
`Option`: a slot may hold something that is not one of the things counted.

Every move is `moved`, with one thing relocated and everything else shown as before, and the
ways have names: from slot to slot, into a line, out of one, in and out of the system. A step
that does two of them is two moves with a map in between.
-/

set_option autoImplicit false

namespace OsKernel.Lib

/-- Where a thing is. -/
inductive Place (P Q : Type)
  | nowhere
  | slot (p : P)
  | line (q : Q)

variable {P Q N : Type} [DecidableEq N]

/-- The map after `o`, if there is one, has moved to `x`. -/
def relocate (place : N → Place P Q) (o : Option N) (x : Place P Q) : N → Place P Q :=
  fun n => if o = some n then x else place n

@[simp] theorem relocate_none (place : N → Place P Q) (x : Place P Q) :
    relocate place none x = place := by
  funext n
  simp [relocate]

@[simp] theorem relocate_self (place : N → Place P Q) (n : N) (x : Place P Q) :
    relocate place (some n) x n = x := by
  simp [relocate]

theorem relocate_ne {place : N → Place P Q} {o : Option N} {x : Place P Q} {n : N}
    (h : o ≠ some n) : relocate place o x n = place n := by
  simp [relocate, h]

/-- All slots and lines show what the map says. -/
structure Placed (slot : P → Option N) (line : Q → List N) (place : N → Place P Q) : Prop where
  inSlot : ∀ p n, slot p = some n ↔ place n = .slot p
  inLine : ∀ q n, n ∈ line q ↔ place n = .line q
  nodup : ∀ q, (line q).Nodup

namespace Placed

variable {slot slot' : P → Option N} {line line' : Q → List N} {place : N → Place P Q}

omit [DecidableEq N] in
theorem slot_unique (h : Placed slot line place) {p p' : P} {n : N} (hp : slot p = some n)
    (hp' : slot p' = some n) : p = p' := by
  have hn := (h.inSlot p n).mp hp
  rw [(h.inSlot p' n).mp hp'] at hn
  injection hn with hn
  exact hn.symm

omit [DecidableEq N] in
theorem line_unique (h : Placed slot line place) {q q' : Q} {n : N} (hq : n ∈ line q)
    (hq' : n ∈ line q') : q = q' := by
  have hn := (h.inLine q n).mp hq
  rw [(h.inLine q' n).mp hq'] at hn
  injection hn with hn
  exact hn.symm

omit [DecidableEq N] in
theorem slot_not_line (h : Placed slot line place) {p : P} {q : Q} {n : N} (hp : slot p = some n) :
    n ∉ line q := by
  intro hq
  have hn := (h.inSlot p n).mp hp
  rw [(h.inLine q n).mp hq] at hn
  cases hn

/-- A move between places makes nothing appear or disappear. -/
theorem somewhere (h : Placed slot line place) {p : P} {o : Option N} (ho : slot p = o)
    {x : Place P Q} (hx : x ≠ .nowhere) (n : N) :
    relocate place o x n ≠ .nowhere ↔ place n ≠ .nowhere := by
  by_cases hn : o = some n
  · subst hn
    rw [relocate_self, (h.inSlot p n).mp ho]
    simp [hx]
  · rw [relocate_ne hn]

/-- One thing has moved to `x`, and slots and lines show the others as before. -/
theorem moved (h : Placed slot line place) {n : N} {x : Place P Q}
    (hs : ∀ p, slot' p = some n ↔ x = .slot p) (hl : ∀ q, n ∈ line' q ↔ x = .line q)
    (hso : ∀ p m, n ≠ m → (slot' p = some m ↔ slot p = some m))
    (hlo : ∀ q m, n ≠ m → (m ∈ line' q ↔ m ∈ line q)) (hnd : ∀ q, (line' q).Nodup) :
    Placed slot' line' (relocate place (some n) x) := by
  refine ⟨?_, ?_, hnd⟩
  · intro p m
    by_cases hm : n = m
    · subst hm
      rw [relocate_self]
      exact hs p
    · rw [relocate_ne (by simpa using hm), hso p m hm]
      exact h.inSlot p m
  · intro q m
    by_cases hm : n = m
    · subst hm
      rw [relocate_self]
      exact hl q
    · rw [relocate_ne (by simpa using hm), hlo q m hm]
      exact h.inLine q m

section Slots

variable [DecidableEq P]

/-- From one slot to an empty one. -/
theorem shift (h : Placed slot line place) {p p' : P} (hp' : slot p' = none) :
    Placed (Function.update (Function.update slot p none) p' (slot p)) line
      (relocate place (slot p) (.slot p')) := by
  cases ho : slot p with
  | none =>
    have hs : Function.update (Function.update slot p none) p' none = slot := by
      rw [← ho, Function.update_eq_self, ho, ← hp', Function.update_eq_self]
    rw [hs, relocate_none]
    exact h
  | some n =>
    refine h.moved ?_ ?_ ?_ (fun _ _ _ => Iff.rfl) h.nodup
    · intro r
      by_cases hr : r = p'
      · subst hr; simp
      · rw [Function.update_of_ne hr]
        by_cases hrp : r = p
        · subst hrp; simp [Ne.symm hr]
        · rw [Function.update_of_ne hrp]
          constructor
          · intro hs; exact absurd (h.slot_unique hs ho) hrp
          · intro hs; injection hs with hs; exact absurd hs.symm hr
    · intro q
      simp [h.slot_not_line ho]
    · intro r m hm
      by_cases hr : r = p'
      · subst hr; simp [hm, hp']
      · rw [Function.update_of_ne hr]
        by_cases hrp : r = p
        · subst hrp; simp [hm, ho]
        · rw [Function.update_of_ne hrp]

/-- A new thing appears in an empty slot. -/
theorem enter (h : Placed slot line place) {p : P} {n : N} (hn : place n = .nowhere)
    (hp : slot p = none) :
    Placed (Function.update slot p (some n)) line (relocate place (some n) (.slot p)) := by
  refine h.moved ?_ ?_ ?_ (fun _ _ _ => Iff.rfl) h.nodup
  · intro r
    by_cases hr : r = p
    · subst hr; simp
    · rw [Function.update_of_ne hr, h.inSlot, hn]
      simp [Ne.symm hr]
  · intro q
    simp [h.inLine, hn]
  · intro r m hm
    by_cases hr : r = p
    · subst hr; simp [hm, hp]
    · rw [Function.update_of_ne hr]

/-- The thing in a slot is gone. -/
theorem drop (h : Placed slot line place) (p : P) :
    Placed (Function.update slot p none) line (relocate place (slot p) .nowhere) := by
  cases ho : slot p with
  | none =>
    rw [← ho, Function.update_eq_self, ho, relocate_none]
    exact h
  | some n =>
    refine h.moved ?_ ?_ ?_ (fun _ _ _ => Iff.rfl) h.nodup
    · intro r
      by_cases hr : r = p
      · subst hr; simp
      · rw [Function.update_of_ne hr]
        constructor
        · intro hs; exact absurd (h.slot_unique hs ho) hr
        · intro hs; cases hs
    · intro q
      simp [h.slot_not_line ho]
    · intro r m hm
      by_cases hr : r = p
      · subst hr; simp [hm, ho]
      · rw [Function.update_of_ne hr]

variable [DecidableEq Q]

/-- From a slot to the end of a line. -/
theorem join (h : Placed slot line place) {p : P} {n : N} (q : Q) (hp : slot p = some n) :
    Placed (Function.update slot p none) (Function.update line q (line q ++ [n]))
      (relocate place (some n) (.line q)) := by
  refine h.moved ?_ ?_ ?_ ?_ ?_
  · intro r
    by_cases hr : r = p
    · subst hr; simp
    · rw [Function.update_of_ne hr]
      constructor
      · intro hs; exact absurd (h.slot_unique hs hp) hr
      · intro hs; cases hs
  · intro r
    by_cases hr : r = q
    · subst hr; simp
    · rw [Function.update_of_ne hr]
      simp [h.slot_not_line hp, Ne.symm hr]
  · intro r m hm
    by_cases hr : r = p
    · subst hr; simp [hm, hp]
    · rw [Function.update_of_ne hr]
  · intro r m hm
    by_cases hr : r = q
    · subst hr; simp [Ne.symm hm]
    · rw [Function.update_of_ne hr]
  · intro r
    by_cases hr : r = q
    · subst hr
      rw [Function.update_self]
      refine List.nodup_append.mpr ⟨h.nodup r, by simp, ?_⟩
      intro u hu v hv huv
      rw [huv, List.mem_singleton.mp hv] at hu
      exact h.slot_not_line hp hu
    · rw [Function.update_of_ne hr]
      exact h.nodup r

/-- From the head of a line to an empty slot. -/
theorem leave (h : Placed slot line place) {p : P} {q : Q} {n : N} {l : List N}
    (hq : line q = n :: l) (hp : slot p = none) :
    Placed (Function.update slot p (some n)) (Function.update line q l)
      (relocate place (some n) (.slot p)) := by
  have hnq : n ∈ line q := by rw [hq]; exact List.mem_cons_self
  have hnd := h.nodup q
  rw [hq] at hnd
  refine h.moved ?_ ?_ ?_ ?_ ?_
  · intro r
    by_cases hr : r = p
    · subst hr; simp
    · rw [Function.update_of_ne hr]
      constructor
      · intro hs; exact absurd hnq (h.slot_not_line hs)
      · intro hs; injection hs with hs; exact absurd hs.symm hr
  · intro r
    by_cases hr : r = q
    · subst hr
      simpa using (List.nodup_cons.mp hnd).1
    · rw [Function.update_of_ne hr]
      constructor
      · intro hs; exact absurd (h.line_unique hs hnq) hr
      · intro hs; cases hs
  · intro r m hm
    by_cases hr : r = p
    · subst hr; simp [hm, hp]
    · rw [Function.update_of_ne hr]
  · intro r m hm
    by_cases hr : r = q
    · subst hr; simp [hq, Ne.symm hm]
    · rw [Function.update_of_ne hr]
  · intro r
    by_cases hr : r = q
    · subst hr
      rw [Function.update_self]
      exact (List.nodup_cons.mp hnd).2
    · rw [Function.update_of_ne hr]
      exact h.nodup r

end Slots

end Placed

end OsKernel.Lib
