import OsKernel.PhysMem.Model
import Mathlib.Data.Finset.Card
import Mathlib.Data.Finset.Range
import Mathlib.Tactic.Ring

/-!
# The ledger: who holds each frame

The abstract state of `PhysMem`. A `Ledger` says of every frame who holds it, in which order
the free frames are linked, and which frame is the reference table of each chunk. It is what
the counters in memory are supposed to mean; `PhysMem/Inv.lean` says when a machine agrees
with a ledger.

A frame with `Own.counted k` has `k + 1` references, so a count of zero cannot be written
down: a frame nobody refers to is `none`, and one whose last reference has just gone and whose
callback is still running is `dying`. The latter is what makes the nested `decref`s of the
destructors work: its counter is zero, yet the chunk still counts it.

Nothing here mentions a machine. The second half is arithmetic: a frame is the pair of a chunk
and a slot, and the population of a chunk is the number of its slots that are counted or
dying. How the population changes when one frame changes hands (`pop_update_add`,
`pop_update_sub` and their kin) is proved here once. It is what the low bits of `refs` have to
follow, and the one place where frames are counted.
-/

set_option autoImplicit false

namespace OsKernel.PhysMem

open Lib

/-- Who holds a frame. -/
inductive Own
  /-- Nobody: it is free, not yet handed out, or one of the allocator's own tables. -/
  | none
  /-- The caller of `unsafe_alloc_frame`; it has no reference count. -/
  | raw
  /-- Its last reference is gone and its callback runs. -/
  | dying
  /-- Its reference count is `k + 1`. -/
  | counted (k : Nat)
  deriving DecidableEq, Repr

namespace Own

/-- The reference count. -/
def refs : Own → Nat
  | counted k => k + 1
  | _ => 0

/-- Does the chunk count the frame? -/
def live : Own → Bool
  | counted _ => true
  | dying => true
  | _ => false

@[simp] theorem refs_none : none.refs = 0 := rfl
@[simp] theorem refs_raw : raw.refs = 0 := rfl
@[simp] theorem refs_dying : dying.refs = 0 := rfl
@[simp] theorem refs_counted (k : Nat) : (counted k).refs = k + 1 := rfl
@[simp] theorem live_none : none.live = false := rfl
@[simp] theorem live_raw : raw.live = false := rfl
@[simp] theorem live_dying : dying.live = true := rfl
@[simp] theorem live_counted (k : Nat) : (counted k).live = true := rfl

theorem refs_pos_iff {o : Own} : 0 < o.refs ↔ ∃ k, o = counted k := by
  cases o <;> simp

/-- The owner of a frame with one more reference. -/
def inc : Own → Own
  | counted k => counted (k + 1)
  | _ => counted 0

/-- The owner of a frame with one reference less. -/
def dec : Own → Own
  | counted (k + 1) => counted k
  | counted 0 => dying
  | o => o

theorem refs_inc {o : Own} : o.inc.refs = o.refs + 1 := by
  cases o <;> rfl

theorem refs_dec {o : Own} : o.dec.refs = o.refs - 1 := by
  cases o with
  | counted k => cases k <;> rfl
  | _ => rfl

end Own

structure Ledger where
  own : Word → Own
  /-- The free list, head first. -/
  free : List Word
  /-- The reference table of each chunk. -/
  table : Nat → Option Word

/-- The free list in memory: `first`, then the word 0 of each frame, down to the null pointer. -/
def Chain (mem : Word → Nat → Word) : Word → List Word → Prop
  | first, [] => first = 0#32
  | first, p :: rest => first = p ∧ p ≠ 0#32 ∧ Chain mem (mem p 0) rest

theorem Chain.congr {mem mem' : Word → Nat → Word} :
    ∀ {l : List Word} {first : Word}, (∀ p ∈ l, mem' p 0 = mem p 0) →
      Chain mem first l → Chain mem' first l
  | [], _, _, h => h
  | p :: rest, _, hm, ⟨h1, h2, h3⟩ => by
    refine ⟨h1, h2, ?_⟩
    rw [hm p List.mem_cons_self]
    exact Chain.congr (fun q hq => hm q (List.mem_cons_of_mem _ hq)) h3

/-- A frame linked to the head. -/
theorem Chain.push {mem : Word → Nat → Word} {first p : Word} {l : List Word}
    (h : Chain mem first l) (hp : p ≠ 0#32) (hl : p ∉ l) :
    Chain (Function.update mem p (Function.update (mem p) 0 first)) p (p :: l) := by
  refine ⟨rfl, hp, ?_⟩
  rw [Function.update_self, Function.update_self]
  refine h.congr fun q hq => ?_
  have hqp : q ≠ p := fun hqp => hl (hqp ▸ hq)
  rw [Function.update_of_ne hqp]

/-- A chain is determined by where it begins. -/
theorem Chain.unique {mem : Word → Nat → Word} :
    ∀ {l l' : List Word} {first : Word}, Chain mem first l → Chain mem first l' → l' = l
  | [], [], _, _, _ => rfl
  | [], _ :: _, _, h, ⟨h1, h2, _⟩ => absurd (h1.symm.trans h) h2
  | _ :: _, [], _, ⟨h1, h2, _⟩, h => absurd (h1.symm.trans h) h2
  | p :: rest, q :: rest', first, ⟨h1, _, h3⟩, ⟨h1', _, h3'⟩ => by
    obtain rfl : p = q := h1.symm.trans h1'
    rw [Chain.unique h3 h3']

theorem Chain.first_eq {mem : Word → Nat → Word} {first : Word} {l : List Word}
    (h : Chain mem first l) : first = l.headD 0#32 := by
  cases l with
  | nil => exact h
  | cons p rest => exact h.1

theorem Chain.nil_of_zero {mem : Word → Nat → Word} {l : List Word}
    (h : Chain mem 0#32 l) : l = [] := by
  cases l with
  | nil => rfl
  | cons p rest => exact absurd h.1.symm h.2.1

/-! ## Slots: a frame, its chunk and its counter -/

/-- The frame of counter `r` of chunk `c`. -/
def frameAt (start : Word) (c r : Nat) : Word :=
  BitVec.ofNat 32 (start.toNat + (c * 2048 + r) * 4096)

/-- The owner of the frame of counter `r` of chunk `c`; past the end of memory there is none. -/
def slot (start : Word) (own : Word → Own) (c r : Nat) : Own :=
  if start.toNat + (c * 2048 + r) * 4096 < 2 ^ 32 then own (frameAt start c r) else .none

theorem toNat_index {start p : Word} (h : start.toNat ≤ p.toNat) :
    (index start p).toNat = (p.toNat - start.toNat) / 4096 := by
  have hp := p.isLt
  have hs : (p - start).toNat = p.toNat - start.toNat := by
    rw [BitVec.toNat_sub]
    omega
  unfold index
  rw [BitVec.toNat_ushiftRight, hs, Nat.shiftRight_eq_div_pow]

theorem ridx_eq {start p : Word} (h : start.toNat ≤ p.toNat) :
    ridx start p = (p.toNat - start.toNat) / 4096 / 2048 := by
  unfold ridx
  rw [BitVec.toNat_ushiftRight, toNat_index h, Nat.shiftRight_eq_div_pow]

theorem rofs_eq {start p : Word} (h : start.toNat ≤ p.toNat) :
    rofs start p = (p.toNat - start.toNat) / 4096 % 2048 := by
  have hm : (0x7ff#32).toNat = 2 ^ 11 - 1 := by decide
  unfold rofs
  rw [BitVec.toNat_and, hm, Nat.and_two_pow_sub_one_eq_mod, toNat_index h]

theorem rofs_lt {start p : Word} (h : start.toNat ≤ p.toNat) : rofs start p < 2048 := by
  rw [rofs_eq h]
  exact Nat.mod_lt _ (by decide)

/-- A frame and its slot determine each other. -/
theorem frameAt_eq_iff {start p : Word} (hs : Aligned start) (hp : Aligned p)
    (hle : start.toNat ≤ p.toNat) {c r : Nat} (hr : r < 2048)
    (hlt : start.toNat + (c * 2048 + r) * 4096 < 2 ^ 32) :
    frameAt start c r = p ↔ c = ridx start p ∧ r = rofs start p := by
  unfold Aligned at hs hp
  rw [ridx_eq hle, rofs_eq hle, ← BitVec.toNat_inj]
  unfold frameAt
  rw [BitVec.toNat_ofNat, Nat.mod_eq_of_lt hlt]
  omega

theorem slot_bound {start p : Word} (hs : Aligned start) (hp : Aligned p)
    (hle : start.toNat ≤ p.toNat) :
    start.toNat + (ridx start p * 2048 + rofs start p) * 4096 = p.toNat := by
  unfold Aligned at hs hp
  rw [ridx_eq hle, rofs_eq hle]
  omega

theorem slot_self {start p : Word} (own : Word → Own) (hs : Aligned start) (hp : Aligned p)
    (hle : start.toNat ≤ p.toNat) : slot start own (ridx start p) (rofs start p) = own p := by
  have hb := slot_bound hs hp hle
  have hlt : start.toNat + (ridx start p * 2048 + rofs start p) * 4096 < 2 ^ 32 := by
    rw [hb]; exact p.isLt
  unfold slot
  rw [if_pos hlt, (frameAt_eq_iff hs hp hle (rofs_lt hle) hlt).mpr ⟨rfl, rfl⟩]

/-- Changing the owner of one frame changes one slot. -/
theorem slot_update {start p : Word} (own : Word → Own) (v : Own) (hs : Aligned start)
    (hp : Aligned p) (hle : start.toNat ≤ p.toNat) {c r : Nat} (hr : r < 2048) :
    slot start (Function.update own p v) c r =
      if c = ridx start p ∧ r = rofs start p then v else slot start own c r := by
  by_cases hcr : c = ridx start p ∧ r = rofs start p
  · obtain ⟨rfl, rfl⟩ := hcr
    rw [slot_self _ hs hp hle, if_pos ⟨rfl, rfl⟩, Function.update_self]
  · rw [if_neg hcr]
    unfold slot
    split
    · rename_i hlt
      have hne : frameAt start c r ≠ p := fun h =>
        hcr ((frameAt_eq_iff hs hp hle hr hlt).mp h)
      rw [Function.update_of_ne hne]
    · rfl

/-! ## The population of a chunk -/

/-- How many frames of chunk `c` are counted or dying. -/
def pop (start : Word) (own : Word → Own) (c : Nat) : Nat :=
  ((Finset.range 2048).filter fun r => (slot start own c r).live = true).card

theorem pop_le (start : Word) (own : Word → Own) (c : Nat) : pop start own c ≤ 2048 := by
  unfold pop
  calc _ ≤ (Finset.range 2048).card := Finset.card_filter_le _ _
    _ = 2048 := Finset.card_range _

theorem pop_congr {start : Word} {own own' : Word → Own} {c : Nat}
    (h : ∀ r, r < 2048 → (slot start own' c r).live = (slot start own c r).live) :
    pop start own' c = pop start own c := by
  have hset := Finset.filter_congr (s := Finset.range 2048)
    (p := fun r => (slot start own' c r).live = true)
    (q := fun r => (slot start own c r).live = true)
    (fun r hr => by rw [h r (Finset.mem_range.mp hr)])
  unfold pop
  rw [hset]

theorem pop_pos_of {start p : Word} (own : Word → Own) (hs : Aligned start) (hp : Aligned p)
    (hle : start.toNat ≤ p.toNat) (h : (own p).live = true) :
    0 < pop start own (ridx start p) := by
  refine Finset.card_pos.mpr ⟨rofs start p, Finset.mem_filter.mpr ⟨?_, ?_⟩⟩
  · exact Finset.mem_range.mpr (rofs_lt hle)
  · rw [slot_self own hs hp hle, h]

/-- A chunk with a population has a counted frame. -/
theorem exists_live_of_pop_pos {start : Word} {own : Word → Own} {c : Nat} (hs : Aligned start)
    (h : 0 < pop start own c) :
    ∃ p, (own p).live = true ∧ (start.toNat ≤ p.toNat → Aligned p → ridx start p = c) := by
  obtain ⟨r, hr⟩ := Finset.card_pos.mp h
  obtain ⟨hr, hl⟩ := Finset.mem_filter.mp hr
  have hr := Finset.mem_range.mp hr
  unfold slot at hl
  by_cases hlt : start.toNat + (c * 2048 + r) * 4096 < 2 ^ 32
  · rw [if_pos hlt] at hl
    exact ⟨_, hl, fun hle hp => ((frameAt_eq_iff hs hp hle hr hlt).mp rfl).1.symm⟩
  · rw [if_neg hlt] at hl
    exact absurd hl (by simp)

theorem pop_eq_zero {start : Word} {own : Word → Own} (h : ∀ p, own p = .none) (c : Nat) :
    pop start own c = 0 := by
  unfold pop slot
  rw [Finset.card_eq_zero, Finset.filter_eq_empty_iff]
  intro r _
  split
  · rw [h]
    simp
  · simp

section update

variable {start p : Word} {own : Word → Own} {v : Own} (hs : Aligned start) (hp : Aligned p)
  (hle : start.toNat ≤ p.toNat)

include hs hp hle

/-- A change of the owner that leaves the count. -/
theorem slot_refs_same (h : v.refs = (own p).refs) {c r : Nat} (hr : r < 2048) :
    (slot start (Function.update own p v) c r).refs = (slot start own c r).refs := by
  rw [slot_update own v hs hp hle hr]
  split
  · rename_i hcr
    rw [hcr.1, hcr.2, slot_self own hs hp hle, h]
  · rfl

/-- The population of other chunks does not see `p`. -/
theorem pop_update_other {c : Nat} (hc : c ≠ ridx start p) :
    pop start (Function.update own p v) c = pop start own c := by
  refine pop_congr fun r hr => ?_
  rw [slot_update own v hs hp hle hr, if_neg (by rintro ⟨rfl, -⟩; exact hc rfl)]

/-- The population does not change while `p` stays counted or stays uncounted. -/
theorem pop_update_same (h : v.live = (own p).live) (c : Nat) :
    pop start (Function.update own p v) c = pop start own c := by
  refine pop_congr fun r hr => ?_
  rw [slot_update own v hs hp hle hr]
  split
  · rename_i hcr
    rw [hcr.1, hcr.2, slot_self own hs hp hle, h]
  · rfl

/-- A frame that becomes counted adds one to its chunk. -/
theorem pop_update_add (hold : (own p).live = false) (hnew : v.live = true) :
    pop start (Function.update own p v) (ridx start p) = pop start own (ridx start p) + 1 := by
  have hself := slot_self own hs hp hle
  have hset : ((Finset.range 2048).filter fun r =>
        (slot start (Function.update own p v) (ridx start p) r).live = true) =
      insert (rofs start p) ((Finset.range 2048).filter fun r =>
        (slot start own (ridx start p) r).live = true) := by
    ext r
    simp only [Finset.mem_filter, Finset.mem_insert, Finset.mem_range]
    by_cases hr : r < 2048
    · rw [slot_update own v hs hp hle hr]
      by_cases he : r = rofs start p
      · simp [he, hnew, rofs_lt hle]
      · simp [he, hr]
    · have : r ≠ rofs start p := fun h => hr (h ▸ rofs_lt hle)
      simp [hr, this]
  unfold pop
  rw [hset, Finset.card_insert_of_notMem]
  simp [hself, hold]

/-- A frame that stops being counted takes one from its chunk. -/
theorem pop_update_sub (hold : (own p).live = true) (hnew : v.live = false) :
    pop start (Function.update own p v) (ridx start p) + 1 = pop start own (ridx start p) := by
  have h := @pop_update_add start p (Function.update own p v) (own p) hs hp hle
    (by rw [Function.update_self]; exact hnew) hold
  rw [Function.update_idem, Function.update_eq_self] at h
  exact h.symm

end update

end OsKernel.PhysMem
