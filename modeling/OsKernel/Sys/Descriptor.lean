import Mathlib.Data.List.FinRange
import Mathlib.Logic.Function.Basic
import OsKernel.Lib.Words

/-!
# Descriptors and the tables they index

`descriptor.h` and the macro-generated `get_*` and `set_*` of `process.h`. A descriptor is a
type tag in the four high bits and an index in the others. A table has ten slots; an empty
slot holds the object `FD::empty`, `PD::empty` or `SD::empty`, here `none`. The other slots
hold the numbers of objects.

The macro of `process.h` is written out three times by the preprocessor, with another tag and
another table each time; here it is one function of the tag, and `Sys/Model.lean` has the
three under their own names again where they differ, which is in the handle that a slot takes
over.

Two things about descriptors are used everywhere else and proved here. A name can be taken
apart again: tag and index do not overlap, as an index is below ten and a tag has no index
bits (`eq_name`). And `failed`, which is -1, is the name of nothing, as its index would be far
above ten (`name_ne_failed`): a call that returns a descriptor has not failed.

`put` takes the place of assigning to the array. An index is a `Fin 10`, so that an access out
of bounds cannot be written down; that the code makes none is in the tests against 10 that the
functions of `Sys/Model.lean` make before they have an index, where the source makes them.
-/

set_option autoImplicit false

namespace OsKernel.Sys

open Lib

/-! ## Words -/

/-- `TYPE_MASK`. -/
def typeMask : Word := 0xf0000000#32
/-- `NUM_MASK`. -/
def numMask : Word := 0x0fffffff#32
/-- `TYPE_FD`. -/
def typeFd : Word := 0x00000000#32
/-- `TYPE_PD`. -/
def typePd : Word := 0x10000000#32
/-- `TYPE_SD`. -/
def typeSd : Word := 0x20000000#32

/-- `-1`. -/
def failed : Word := 0xffffffff#32

/-- A table has a first slot. -/
instance table_ne_zero : NeZero (9 + 1) := ⟨by decide⟩

/-- `i | TYPE`. -/
def name (tag : Word) (i : Fin 10) : Word := BitVec.ofNat 32 i ||| tag

/-- A word that has no index bits. -/
def IsTag (tag : Word) : Prop := tag &&& typeMask = tag ∧ tag &&& numMask = 0#32

theorem isTag_fd : IsTag typeFd := by unfold IsTag; decide
theorem isTag_pd : IsTag typePd := by unfold IsTag; decide
theorem isTag_sd : IsTag typeSd := by unfold IsTag; decide

theorem toNat_num (des : Word) : (des &&& numMask).toNat = des.toNat % 2 ^ 28 := by
  have h : numMask.toNat = 2 ^ 28 - 1 := by decide
  rw [BitVec.toNat_and, h, Nat.and_two_pow_sub_one_eq_mod]

theorem index_num (i : Fin 10) : BitVec.ofNat 32 i &&& numMask = BitVec.ofNat 32 i := by
  have hi := i.isLt
  rw [← BitVec.toNat_inj, toNat_num, BitVec.toNat_ofNat]
  omega

theorem index_type (i : Fin 10) : BitVec.ofNat 32 i &&& typeMask = 0#32 := by
  have hmask : numMask &&& typeMask = 0#32 := by decide
  rw [← index_num, BitVec.and_assoc, hmask, BitVec.and_zero]

theorem name_type {tag : Word} (h : IsTag tag) (i : Fin 10) : name tag i &&& typeMask = tag := by
  rw [name, BitVec.and_or_distrib_right, index_type, h.1, BitVec.zero_or]

theorem name_num {tag : Word} (h : IsTag tag) (i : Fin 10) :
    name tag i &&& numMask = BitVec.ofNat 32 i := by
  rw [name, BitVec.and_or_distrib_right, index_num, h.2, BitVec.or_zero]

theorem name_index {tag : Word} (h : IsTag tag) (i : Fin 10) :
    (name tag i &&& numMask).toNat = i := by
  have hi := i.isLt
  rw [name_num h, BitVec.toNat_ofNat]
  omega

theorem name_inj {tag : Word} (h : IsTag tag) {i j : Fin 10} (heq : name tag i = name tag j) :
    i = j := by
  have hi := name_index h i
  rw [heq, name_index h j] at hi
  exact Fin.ext hi.symm

/-- A descriptor is put together again from its two parts. -/
theorem eq_name {tag des : Word} (htype : des &&& typeMask = tag) {i : Fin 10}
    (hnum : (des &&& numMask).toNat = i) : des = name tag i := by
  have hcover : numMask ||| typeMask = BitVec.allOnes 32 := by decide
  have hi : BitVec.ofNat 32 i = des &&& numMask := by
    rw [← BitVec.toNat_inj, BitVec.toNat_ofNat, hnum]
    omega
  rw [name, hi, ← htype, ← BitVec.and_or_distrib_left, hcover, BitVec.and_allOnes]

/-- A name is not `-1`. -/
theorem name_ne_failed {tag : Word} (h : IsTag tag) (i : Fin 10) : name tag i ≠ failed := by
  intro heq
  have hi := name_index h i
  have hlarge : (failed &&& numMask).toNat = 0x0fffffff := by decide
  rw [heq, hlarge] at hi
  omega

/-! ## Tables -/

/-- `Shared<..> fdt[10]` and its like. -/
abbrev Table := Fin 10 → Option Nat

namespace Table

/-- All slots hold `empty`. -/
def empty : Table := fun _ => none

/-- `get_fd(des)`, `get_pd(des)`, `get_sd(des)`. -/
def get (t : Table) (tag des : Word) : Option Nat :=
  if des &&& typeMask ≠ tag then none
  else if h : (des &&& numMask).toNat < 10 then t ⟨_, h⟩
  else none

/-- The slot at which the loop of `set_fd`, `set_pd`, `set_sd` stops. -/
def free (t : Table) : Option (Fin 10) := (List.finRange 10).find? fun i => (t i).isNone

/-- `t[i] = o`. -/
def put (t : Table) (i : Fin 10) (o : Option Nat) : Table := Function.update t i o

variable {t : Table} {tag des : Word} {i j : Fin 10} {o : Nat}

@[simp] theorem put_self (v : Option Nat) : t.put i v i = v := Function.update_self ..

theorem put_ne (v : Option Nat) (h : j ≠ i) : t.put i v j = t j := Function.update_of_ne h ..

/-- A lookup that succeeds has named a slot that is not empty. -/
theorem get_eq_some (htag : IsTag tag) :
    t.get tag des = some o ↔ ∃ i, des = name tag i ∧ t i = some o := by
  constructor
  · intro h
    unfold get at h
    split at h
    · cases h
    · rename_i htype
      split at h
      · rename_i hlt
        exact ⟨⟨_, hlt⟩, eq_name (not_not.mp htype) rfl, h⟩
      · cases h
  · rintro ⟨i, rfl, hi⟩
    have hlt : (name tag i &&& numMask).toNat < 10 := by
      rw [name_index htag]
      exact i.isLt
    have hslot : (⟨_, hlt⟩ : Fin 10) = i := Fin.ext (name_index htag i)
    unfold get
    rw [if_neg (not_not.mpr (name_type htag i)), dif_pos hlt, hslot, hi]

theorem get_name (htag : IsTag tag) : t.get tag (name tag i) = t i := by
  cases hi : t i with
  | some o => exact (get_eq_some htag).mpr ⟨i, rfl, hi⟩
  | none =>
    cases hg : t.get tag (name tag i) with
    | none => rfl
    | some o =>
      obtain ⟨j, hj, ho⟩ := (get_eq_some htag).mp hg
      rw [name_inj htag hj, ho] at hi
      cases hi

/-- A tag of another kind names nothing. -/
theorem get_wrong_type (h : des &&& typeMask ≠ tag) : t.get tag des = none := by
  unfold get
  rw [if_pos h]

theorem get_out_of_range (h : 10 ≤ (des &&& numMask).toNat) : t.get tag des = none := by
  unfold get
  rw [dif_neg (Nat.not_lt.mpr h), ite_self]

/-- The slot found is the lowest empty one. -/
theorem free_eq_some : t.free = some i ↔ t i = none ∧ ∀ j < i, t j ≠ none := by
  unfold free
  rw [List.find?_eq_some_iff_getElem]
  constructor
  · rintro ⟨hnone, k, hk, hki, hbefore⟩
    have hval : k = i := by
      have := congrArg Fin.val hki
      simpa using this
    refine ⟨Option.isNone_iff_eq_none.mp hnone, fun j hj hjn => ?_⟩
    have := hbefore j (by omega)
    simp [hjn] at this
  · rintro ⟨hnone, hbefore⟩
    refine ⟨Option.isNone_iff_eq_none.mpr hnone, i, by simp, by simp, fun j hj => ?_⟩
    have hjlt : j < 10 := Nat.lt_trans hj i.isLt
    have hne := hbefore ⟨j, hjlt⟩ hj
    simpa [Option.isSome_iff_ne_none] using hne

/-- No slot is found exactly if all are in use. -/
theorem free_eq_none : t.free = none ↔ ∀ i, t i ≠ none := by
  unfold free
  rw [List.find?_eq_none]
  simp

theorem not_full (h : t.free = some i) : ¬∀ i, t i ≠ none :=
  fun hfull => hfull i (free_eq_some.mp h).1

end Table

end OsKernel.Sys
