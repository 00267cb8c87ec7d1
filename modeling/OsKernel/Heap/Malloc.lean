import Mathlib.Data.Int.ConditionallyCompleteOrder
import Mathlib.Data.Int.Interval
import Mathlib.Data.List.MinMax
import Mathlib.Order.ConditionallyCompleteLattice.Finset
import OsKernel.Heap.Spec

/-!
# `malloc`

The search looks at listed blocks only, ends, and finds a block if there is one that is large
enough. What it finds is taken out of the list and is cut or taken whole.

The loop of the source follows the list and counts down from 20 with each block that is large
enough. `Inv.search` is its invariant, along the rest of the list: what it has so far is the
smallest of the candidates seen, the first among equals. The list is shorter than the array
(`Inv.length_le`), so the fuel is enough and the search always ends. That a cyclic list would
not end is the reason for the fuel.

`Answer` is the result for a caller who asks for memory, and `Choice` the one for whoever
wants to know which block it is. Both have three cases: a request of no bytes, which gets the
array itself; no block; a block.
-/

set_option autoImplicit false

namespace OsKernel.KernelHeap

open Lib Prog

variable {h h' : Heap} {blk blk' : Blocks} {links : List Int} {i n : Int} {b : Block}

/-! ## Pointers -/

/-- The address of the word behind a header. -/
theorem pointer_toNat (hfits : h.base.toNat + 4 * h.len ≤ 2 ^ 32) (hi : 0 ≤ i)
    (hlen : i + 1 < h.len) : ((h.pointer i).toNat : Int) = h.base.toNat + 4 * (i + 1) := by
  obtain ⟨m, hm⟩ := Int.eq_ofNat_of_zero_le (a := i + 1) (by omega)
  have hofInt : BitVec.ofInt 32 (i + 1) = BitVec.ofNat 32 m := by
    rw [hm]
    exact BitVec.ofInt_natCast ..
  unfold Heap.pointer
  rw [hofInt, hm]
  bv_omega

/-- A pointer leads back to the header. -/
theorem index_pointer (hfits : h.base.toNat + 4 * h.len ≤ 2 ^ 32) (hi : 0 ≤ i)
    (hlen : i + 1 < h.len) : h.index (h.pointer i) = i := by
  have hp := pointer_toNat hfits hi hlen
  have hsub : (h.pointer i - h.base).toNat = (h.pointer i).toNat - h.base.toNat :=
    BitVec.toNat_sub_of_le (by rw [BitVec.le_def]; omega)
  unfold Heap.index
  rw [BitVec.toNat_udiv, hsub]
  show (((h.pointer i).toNat - h.base.toNat) / 4 : Nat) - 1 = i
  omega

theorem pointer_ne (hfits : h.base.toNat + 4 * h.len ≤ 2 ^ 32) (hi : 0 ≤ i)
    (hlen : i + 1 < h.len) : h.pointer i ≠ 0 ∧ h.pointer i ≠ h.base := by
  have hp := pointer_toNat hfits hi hlen
  constructor
  · intro h0
    rw [h0] at hp
    have hz : ((0 : Word).toNat : Int) = 0 := rfl
    omega
  · intro hb
    rw [hb] at hp
    omega

/-! ## The search

The loop keeps the smallest block seen so far that is large enough, and looks at most at twenty
such blocks. `Found` is what that means at each turn. That the block is also the first of the
smallest, as `argmin` has it, is `Found.chosen_look`: a block is taken only if it is smaller. -/

/-- What the search has so far: nothing, or a listed block that is large enough. -/
def Found (h : Heap) (links : List Int) (n mx it : Int) : Prop :=
  (it = 0 ∧ mx = 0x7fffffff) ∨ (it ∈ links ∧ h.size it = mx ∧ n ≤ mx)

theorem Inv.listed_block (I : Inv h blk links) (hi : i ∈ links) :
    h.isAvail i = true ∧ 2 ≤ i ∧ h.size i ≤ 2 ^ 30 := by
  obtain ⟨b, hb, hfree⟩ := (I.listed i).mp hi
  have hin := I.free_inside hb hfree
  have hlen := I.len_lt
  refine ⟨(I.isAvail_eq hb).trans hfree, hin.1, ?_⟩
  rw [I.size_eq hb]
  omega

/-- One more block looked at. -/
theorem Found.look (I : Inv h blk links) {mx it : Int} (f : Found h links n mx it) (hi : i ∈ links)
    (hn : n ≤ h.size i) :
    let found := if h.size i < mx then (h.size i, i) else (mx, it)
    Found h links n found.1 found.2 ∧ found.2 ≠ 0 := by
  obtain ⟨-, h2, hsize⟩ := I.listed_block hi
  intro found
  by_cases hlt : h.size i < mx
  · have hf : found = (h.size i, i) := if_pos hlt
    rw [hf]
    exact ⟨.inr ⟨hi, rfl, hn⟩, by show i ≠ 0; omega⟩
  · have hf : found = (mx, it) := if_neg hlt
    rw [hf]
    rcases f with ⟨-, hmx⟩ | ⟨hit, hs, hle⟩
    · omega
    · have hit2 := (I.listed_block hit).2.1
      exact ⟨.inr ⟨hit, hs, hle⟩, by show it ≠ 0; omega⟩

/-- The block that the search has, if it has one. -/
def chosen (it : Int) : Option Int := if it = 0 then none else some it

/-- The blocks that the search compares. -/
def Heap.candidates (h : Heap) (n : Int) (links : List Int) : List Int :=
  (links.filter fun i => n ≤ h.size i).take 20

/-- The block looked at takes the place of the one found before exactly if it is smaller. -/
theorem Found.chosen_look (I : Inv h blk links) {mx it : Int} (f : Found h links n mx it)
    (hi : i ∈ links) :
    chosen (if h.size i < mx then (h.size i, i) else (mx, it)).2 =
      List.argAux (fun j k => h.size j < h.size k) (chosen it) i := by
  obtain ⟨-, h2, hsize⟩ := I.listed_block hi
  have hci : chosen i = some i := if_neg (by omega)
  rcases f with ⟨rfl, rfl⟩ | ⟨hit, rfl, -⟩
  · rw [if_pos (by omega)]
    exact hci
  · have hcit : chosen it = some it := by
      have hit2 := (I.listed_block hit).2.1
      exact if_neg (by omega)
    rw [hcit]
    show _ = if h.size i < h.size it then some i else some it
    split
    · exact hci
    · exact hcit

/-- The search from a node of the list on. -/
theorem Inv.search (I : Inv h blk links) (n : Int) {xs : List Int} :
    ∀ {fuel : Nat} {p q r : Int} {k : Nat} {mx it : Int}, (∀ j ∈ xs, j ∈ links) →
      Seg h.next h.prev q p xs r 0 → xs.length < fuel → 0 < k → Found h links n mx it →
      ∃ mx' it', h.search n fuel p k mx it = .ok (mx', it') ∧ Found h links n mx' it' ∧
        chosen it' = ((xs.filter fun i => n ≤ h.size i).take k).foldl
          (List.argAux fun i j => h.size i < h.size j) (chosen it) := by
  induction xs with
  | nil =>
    intro fuel p q r k mx it _ hs hfuel _ f
    cases fuel with
    | zero => cases hfuel
    | succ fuel =>
      refine ⟨mx, it, ?_, f, ?_⟩
      · unfold Heap.search
        rw [if_pos hs.1]
      · rw [List.filter_nil, List.take_nil, List.foldl_nil]
  | cons j xs ih =>
    intro fuel p q r k mx it hsub hs hfuel hk f
    obtain ⟨rfl, -, hs⟩ := hs
    have hp := hsub p List.mem_cons_self
    have hsub' : ∀ j ∈ xs, j ∈ links := fun j hj => hsub j (List.mem_cons_of_mem _ hj)
    obtain ⟨havail, h2, -⟩ := I.listed_block hp
    cases fuel with
    | zero => cases hfuel
    | succ fuel =>
      have hfuel' : xs.length < fuel := Nat.lt_of_succ_lt_succ hfuel
      unfold Heap.search
      rw [if_neg (by omega), if_pos havail]
      dsimp only
      by_cases hn : n ≤ h.size p
      · obtain ⟨f', -⟩ := f.look I hp hn
        obtain ⟨k, rfl⟩ : ∃ k', k = k' + 1 := ⟨k - 1, by omega⟩
        rw [if_pos hn, List.filter_cons, if_pos (decide_eq_true hn), List.take_succ_cons,
          List.foldl_cons, ← f.chosen_look I hp, Nat.add_sub_cancel]
        by_cases hc : k = 0
        · subst hc
          rw [if_pos rfl, List.take_zero, List.foldl_nil]
          exact ⟨_, _, rfl, f', rfl⟩
        · rw [if_neg hc]
          exact ih hsub' hs hfuel' (Nat.pos_of_ne_zero hc) f'
      · rw [if_neg hn, List.filter_cons, if_neg fun h => hn (of_decide_eq_true h)]
        exact ih hsub' hs hfuel' hk f

/-- The list is shorter than the array. -/
theorem Inv.length_le (I : Inv h blk links) : links.length ≤ h.len.toNat := by
  have hsub : links.toFinset ⊆ Finset.Ico 0 h.len := by
    intro i hi
    obtain ⟨b, hb, hfree⟩ := (I.listed i).mp (List.mem_toFinset.mp hi)
    have hin := I.free_inside hb hfree
    rw [Finset.mem_Ico]
    omega
  have hcard := Finset.card_le_card hsub
  rw [List.toFinset_card_of_nodup I.linked.1, Int.card_Ico] at hcard
  omega

/-- Nothing is compared exactly if no block is large enough. -/
theorem Inv.candidates_nil (I : Inv h blk links) :
    h.candidates n links = [] ↔ ∀ i b, blk i = some b → b.free = true → b.size < n := by
  unfold Heap.candidates
  rw [List.take_eq_nil_iff, or_iff_right (by decide), List.filter_eq_nil_iff]
  constructor
  · intro hno i b hb hfree
    have hi := hno i ((I.listed i).mpr ⟨b, hb, hfree⟩)
    rw [decide_eq_true_eq, I.size_eq hb] at hi
    omega
  · intro hsmall i hi
    obtain ⟨b, hb, hfree⟩ := (I.listed i).mp hi
    have hlt := hsmall i b hb hfree
    rw [decide_eq_true_eq, I.size_eq hb]
    omega

/-- The search of `malloc`. -/
theorem Inv.search_all (I : Inv h blk links) (n : Int) :
    ∃ mx it, h.search n (h.len.toNat + 1) h.avail 20 0x7fffffff 0 = .ok (mx, it) ∧
      Found h links n mx it ∧ chosen it = (h.candidates n links).argmin h.size := by
  obtain ⟨-, -, q, hs⟩ := I.linked
  exact I.search n (fun _ hj => hj) hs (Nat.lt_succ_of_le I.length_le) (by decide)
    (.inl ⟨rfl, rfl⟩)

/-! ## The operation -/

theorem four_le_ints (bytes : Word) : 4 ≤ ints bytes := by
  unfold ints
  dsimp only
  split <;> omega

/-- What `malloc` answers. -/
inductive Answer (h : Heap) (blk : Blocks) (bytes p : Word) (h' : Heap) : Prop
  | nothing (hb : bytes = 0) (hp : p = h.base) (hh : h' = h)
  | none (hb : bytes ≠ 0) (hp : p = 0) (hh : h' = h)
      (hsmall : ∀ i b, blk i = some b → b.free = true → b.size < ints bytes)
  | block (i k : Int) (blk' : Blocks) (links' : List Int) (hb : bytes ≠ 0)
      (hp : p = h.pointer i) (I : Inv h' blk' links') (t : Took h blk i k h' blk')
      (hk : ints bytes ≤ k)

/-- The pointer to a block that was cut out leads back to it. -/
theorem Took.index (t : Took h blk i n h' blk') (L : Layout h blk) :
    h'.index (h.pointer i) = i ∧ h.pointer i ≠ 0 ∧ h.pointer i ≠ h.base := by
  obtain ⟨c, hc, hcf, -⟩ := t.inFree
  have hin := L.free_inside hc hcf
  refine ⟨?_, pointer_ne L.fits (by omega) (by omega)⟩
  have hback := index_pointer L.fits (i := i) (by omega) (by omega)
  unfold Heap.index at hback ⊢
  rw [t.base]
  exact hback

/-- What `malloc` answers, with the block that it chooses. -/
inductive Choice (h : Heap) (blk : Blocks) (links : List Int) (bytes p : Word) (h' : Heap) : Prop
  | nothing (hb : bytes = 0) (hp : p = h.base) (hh : h' = h)
  | none (hb : bytes ≠ 0) (hp : p = 0) (hh : h' = h)
      (hnone : h.candidates (ints bytes) links = [])
  | whole (it : Int) (b : Block) (hb : bytes ≠ 0)
      (best : (h.candidates (ints bytes) links).argmin h.size = some it)
      (hblk : blk it = some b) (hfree : b.free = true) (hp : p = h.pointer it)
      (hle : ints bytes ≤ b.size) (hextra : b.size - ints bytes < 4)
      (I : Inv h' (blk.takeAll it b) (links.erase it))
      (t : Took h blk it b.size h' (blk.takeAll it b))
  | part (it : Int) (b : Block) (hb : bytes ≠ 0)
      (best : (h.candidates (ints bytes) links).argmin h.size = some it)
      (hblk : blk it = some b) (hfree : b.free = true) (hp : p = h.pointer it)
      (hextra : 4 ≤ b.size - ints bytes)
      (I : Inv h' (blk.takePart it b (ints bytes)) ((it + ints bytes) :: links.erase it))
      (t : Took h blk it (ints bytes) h' (blk.takePart it b (ints bytes)))

theorem Inv.wp_malloc_choice (I : Inv h blk links) (bytes : Word) :
    wp (malloc bytes) (Choice h blk links bytes) (fun _ _ => False) h := by
  unfold malloc
  rw [wp_bind, wp_get, wp_ite]
  split
  · rename_i hb
    exact .nothing hb rfl rfl
  · rename_i hb
    obtain ⟨mx, it, hr, hf, hbest⟩ := I.search_all (ints bytes)
    rw [hr]
    dsimp only
    rw [wp_ite]
    have h4 := four_le_ints bytes
    rcases hf with ⟨rfl, -⟩ | ⟨hit, hmx, hle⟩
    · rw [if_neg fun hne => hne rfl]
      exact .none hb rfl rfl (List.argmin_eq_none.mp hbest.symm)
    · have h2 := (I.listed_block hit).2.1
      obtain ⟨b, hblk, hfree⟩ := (I.listed it).mp hit
      obtain ⟨o, C⟩ := I.chained.remove hit
      obtain rfl : mx = b.size := hmx.symm.trans (I.size_eq hblk)
      have hchosen : chosen it = some it := if_neg (by omega)
      rw [hchosen] at hbest
      have hpointer : ∀ {h'' : Heap}, h''.base = h.base → h''.pointer it = h.pointer it := by
        intro h'' hbase
        unfold Heap.pointer
        rw [hbase]
      rw [if_pos (by omega), wp_ite]
      split
      · rename_i hextra
        obtain ⟨I', t⟩ := C.takePart o I.toLayout Heap.remove_base Heap.remove_len
          hblk hfree h4 (by omega)
        exact .part it b hb hbest.symm hblk hfree (hpointer Heap.remove_base) hextra I' t
      · rename_i hextra
        obtain ⟨I', t⟩ := C.takeAll o I.toLayout Heap.remove_base Heap.remove_len
          hblk hfree
        exact .whole it b hb hbest.symm hblk hfree (hpointer Heap.remove_base) hle (by omega) I' t

theorem Choice.answer (I : Inv h blk links) {bytes p : Word}
    (c : Choice h blk links bytes p h') : Answer h blk bytes p h' := by
  cases c with
  | nothing hb hp hh => exact .nothing hb hp hh
  | none hb hp hh hnone => exact .none hb hp hh (I.candidates_nil.mp hnone)
  | whole it b hb _ _ _ hp hle _ I' t => exact .block it _ _ _ hb hp I' t hle
  | part it b hb _ _ _ hp _ I' t => exact .block it _ _ _ hb hp I' t (Int.le_refl _)

theorem Inv.wp_malloc (I : Inv h blk links) (bytes : Word) :
    wp (malloc bytes) (Answer h blk bytes) (fun _ _ => False) h :=
  wp_mono (I.wp_malloc_choice bytes) (fun _ _ c => Choice.answer I c) fun _ _ hf => hf

end OsKernel.KernelHeap
