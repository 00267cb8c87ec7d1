import OsKernel.Heap.Choice
import OsKernel.Heap.User

/-!
# `realloc` of user programs

`realloc` asks for a block, copies the smaller of the two sizes, and gives the old block back;
it does the last of these whether or not there was a block. What a caller can rely on is said
here exactly: when the data are preserved, for every state that a program can reach and every
pointer that it holds.

The proofs are in three parts. The search is the other loop, which stops at the first block
that is large enough, `memcpy` is a loop over bytes in an array of words, and `Moved` puts
`malloc`, the copy and `free` together. The bytes of the old block survive the `malloc`, since
that writes to free blocks only, and the copy is between two blocks, so it does not overlap.

The pointer of a request for no bytes needs its own case (`Grown`). It is the address of the
array, and `realloc` takes it for the address of a payload: the size that it reads is in front
of the array. What it does then depends on that word: it may do nothing at all, or copy from
the array.

Sizes from 2³² - 3 on cannot be rounded up. `malloc` then looks for four words, which is too
little for most blocks, and `Overruns` is the condition that it matters.
-/

set_option autoImplicit false

namespace OsKernel.UserHeap

open Lib hiding Word
open Prog
open KernelHeap hiding Stop State Op step malloc free heapInit Reachable Good

variable {h h' h₁ : Heap} {blk blk' : Blocks} {links : List Int} {i j n : Int} {b c : Block}

/-! ## `malloc` and `free`

The user's `malloc` takes the first block that is large enough, where the kernel's compares
twenty; the words and the list are the same, so the lemmas about cutting a block and about merging
are used again. What the search finds is all that differs, and `Found` and `Answer` state it. -/

/-- The search from a node of the list on: it ends at a block that is large enough, or it has seen
that there is none. -/
theorem search_from (I : Inv h blk links) {xs : List Int} :
    ∀ {fuel : Nat} {p q r : Int}, (∀ j ∈ xs, j ∈ links) → Seg h.next h.prev q p xs r 0 →
      xs.length < fuel → ∃ it, search h n fuel p = .ok it ∧
        ((it = 0 ∧ ∀ j ∈ xs, h.size j < n) ∨ (it ∈ links ∧ n ≤ h.size it)) := by
  induction xs with
  | nil =>
    intro fuel p q r _ hs hfuel
    cases fuel with
    | zero => cases hfuel
    | succ fuel =>
      refine ⟨0, ?_, .inl ⟨rfl, fun j hj => by cases hj⟩⟩
      unfold search
      rw [if_pos hs.1]
  | cons j xs ih =>
    intro fuel p q r hsub hs hfuel
    obtain ⟨rfl, -, hs⟩ := hs
    have hp := hsub p List.mem_cons_self
    have h2 := (I.listed_block hp).2.1
    cases fuel with
    | zero => cases hfuel
    | succ fuel =>
      unfold search
      rw [if_neg (by omega)]
      by_cases hn : n ≤ h.size p
      · rw [if_pos hn]
        exact ⟨p, rfl, .inr ⟨hp, hn⟩⟩
      · rw [if_neg hn]
        obtain ⟨it, hr, hit⟩ := ih (fun j hj => hsub j (List.mem_cons_of_mem _ hj)) hs
          (Nat.lt_of_succ_lt_succ hfuel)
        refine ⟨it, hr, hit.imp (fun hnone => ⟨hnone.1, fun j hj => ?_⟩) id⟩
        rcases List.mem_cons.mp hj with rfl | hj
        · exact Int.lt_of_not_ge hn
        · exact hnone.2 j hj

theorem search_all (I : Inv h blk links) (n : Int) :
    ∃ it, search h n (h.len.toNat + 1) h.avail = .ok it ∧
      ((it = 0 ∧ ∀ i b, blk i = some b → b.free = true → b.size < n) ∨
        (it ∈ links ∧ n ≤ h.size it)) := by
  obtain ⟨-, -, q, hs⟩ := I.linked
  obtain ⟨it, hr, hit⟩ := search_from (n := n) I (fun _ hj => hj) hs
    (Nat.lt_succ_of_le I.length_le)
  refine ⟨it, hr, hit.imp (fun hnone => ⟨hnone.1, fun i b hb hfree => ?_⟩) id⟩
  have hlt := hnone.2 i ((I.listed i).mpr ⟨b, hb, hfree⟩)
  rw [I.size_eq hb] at hlt
  exact hlt

/-- A listed block is cut or taken whole. -/
theorem take_took (I : Inv h blk links) (hi : i ∈ links) (h4 : 4 ≤ n) :
    ∃ blk' links', Inv (take h i n) blk' links' ∧
      Took h blk i (if h.size i - n ≥ 4 then n else h.size i) (take h i n) blk' := by
  obtain ⟨b, hb, hfree⟩ := (I.listed i).mp hi
  obtain ⟨o, C⟩ := I.chained.remove hi
  unfold take
  rw [I.size_eq hb]
  dsimp only
  by_cases hextra : b.size - n ≥ 4
  · rw [if_pos hextra, if_pos hextra]
    exact ⟨_, _, C.takePart o I.toLayout Heap.remove_base Heap.remove_len hb hfree h4 hextra⟩
  · rw [if_neg hextra, if_neg hextra]
    exact ⟨_, _, C.takeAll o I.toLayout Heap.remove_base Heap.remove_len hb hfree⟩

/-- What `malloc` answers, with the words of the block that it takes. -/
inductive Found (h : Heap) (blk : Blocks) (bytes q : Word) (h' : Heap) : Prop
  | none (hg : granted h bytes = none) (hq : q = 0) (hh : h' = h)
      (hsmall : ∀ i b, blk i = some b → b.free = true → b.size < ints bytes)
  | block (j k : Int) (blk' : Blocks) (links' : List Int) (hg : granted h bytes = some k)
      (hq : q = h.pointer j) (I : Inv h' blk' links') (t : Took h blk j k h' blk')
      (hk : ints bytes ≤ k)

theorem wp_malloc_found (I : Inv h blk links) {bytes : Word} (hb : bytes ≠ 0) :
    wp (malloc bytes) (Found h blk bytes) (fun _ _ => False) h := by
  obtain ⟨it, hr, hit⟩ := search_all I (ints bytes)
  unfold malloc
  rw [wp_bind, wp_get, wp_ite, if_neg hb, hr]
  dsimp only
  rw [wp_ite]
  rcases hit with ⟨rfl, hsmall⟩ | ⟨hmem, hle⟩
  · rw [if_pos rfl]
    refine .none ?_ rfl rfl hsmall
    unfold granted
    rw [hr]
    rfl
  · have h2 := (I.listed_block hmem).2.1
    have h0 : it ≠ 0 := by omega
    obtain ⟨blk', links', I', t⟩ := take_took I hmem (four_le_ints bytes)
    rw [if_neg h0]
    refine .block it _ blk' links' ?_ rfl I' t ?_
    · unfold granted
      rw [hr]
      exact if_neg h0
    · split
      · exact Int.le_refl _
      · exact hle

theorem wp_malloc (I : Inv h blk links) (bytes : Word) :
    wp (malloc bytes) (Answer h blk bytes) (fun _ _ => False) h := by
  by_cases hb : bytes = 0
  · unfold malloc
    rw [wp_bind, wp_get, wp_ite, if_pos hb]
    exact .nothing hb rfl rfl
  · refine wp_mono (wp_malloc_found I hb) (fun q h' f => ?_) fun _ _ hf => hf
    cases f with
    | none _ hq hh hsmall => exact .none hb hq hh hsmall
    | block j k blk' links' _ hq I' t hk => exact .block j k blk' links' hb hq I' t hk

/-- The search ends at a block that is large enough. -/
theorem search_le {it : Int} : ∀ {fuel : Nat} {p : Int}, search h n fuel p = .ok it → it ≠ 0 →
    n ≤ h.size it := by
  intro fuel
  induction fuel with
  | zero => exact fun hr => by cases hr
  | succ fuel ih =>
    intro p hr h0
    unfold search at hr
    split at hr
    · cases hr
      exact absurd rfl h0
    · split at hr
      · rename_i hle
        cases hr
        exact hle
      · exact ih hr h0

theorem le_granted {bytes : Word} {k : Int} (hg : granted h bytes = some k) : ints bytes ≤ k := by
  unfold granted at hg
  split at hg
  · cases hg
  · rename_i p hr
    split at hg
    · cases hg
    · rename_i h0
      obtain rfl := Option.some.inj hg
      split
      · exact Int.le_refl _
      · exact search_le hr h0

/-- Where the kernel's `free` returns, this one does the same. -/
theorem free_eq {p : Word} (hk : KernelHeap.free p h = .ok () h') : free p h = .ok () h' := by
  have hw : wp (KernelHeap.free p) (fun _ t => wp (free p) (fun _ u => u = t) (fun _ _ => False) h)
      (fun _ _ => True) h := by
    unfold KernelHeap.free free
    simp only [wp_bind, wp_get, wp_ite]
    split
    · rfl
    · split
      · rfl
      · split
        · trivial
        · rfl
  have hu := wp_ok hw hk
  obtain ⟨_, t, hr, rfl⟩ := wp_returns hu
  exact hr

/-! ## `memcpy` -/

variable {d s m k o : Nat} {dest src : Word}

/-- A byte is that of its word. -/
theorem byte_congr (hw : h'.cells (o / 4 : Nat) = h.cells (o / 4 : Nat)) :
    byte h' o = byte h o := by
  unfold byte
  rw [hw]

theorem byte_putByte (v : BitVec 8) :
    byte (putByte h o v) k = if k = o then v else byte h k := by
  unfold byte putByte
  rw [Heap.put_cells]
  by_cases hw : k / 4 = o / 4
  · rw [hw, if_pos rfl, BitVec.ofInt_toInt]
    by_cases hk : k = o
    · rw [hk, if_pos rfl]
      exact field_put_same _ _ (by omega)
    · rw [if_neg hk]
      exact field_put_other _ _ (by omega) (by omega)
  · rw [if_neg (by omega), if_neg (fun hk => hw (by rw [hk]))]

theorem putByte_cells (v : BitVec 8) {x : Int} (hx : x ≠ (o / 4 : Nat)) :
    (putByte h o v).cells x = h.cells x := by
  unfold putByte
  rw [Heap.put_cells, if_neg hx]

theorem offset_succ (ho : offset h dest + 1 < 2 ^ 32) :
    offset h (dest + 1#32) = offset h dest + 1 := by
  unfold offset at ho ⊢
  bv_omega

/-- The words that a copy writes are those of its destination. -/
theorem copyBytes_words (n : Nat) : ∀ {dest src : Word} {h : Heap}, offset h dest + n < 2 ^ 32 →
    (copyBytes n dest src h).base = h.base ∧ (copyBytes n dest src h).len = h.len ∧
      (copyBytes n dest src h).avail = h.avail ∧
      ∀ x : Int, (∀ o, offset h dest ≤ o → o < offset h dest + n → x ≠ (o / 4 : Nat)) →
        (copyBytes n dest src h).cells x = h.cells x := by
  induction n with
  | zero => exact fun _ => ⟨rfl, rfl, rfl, fun _ _ => rfl⟩
  | succ n ih =>
    intro dest src h hd
    have hsucc : offset (putByte h (offset h dest) (load h src)) (dest + 1#32) =
      offset h dest + 1 := offset_succ (h := h) (by omega)
    obtain ⟨hbase, hlen, havail, hcells⟩ := @ih (dest + 1#32) (src + 1#32)
      (putByte h (offset h dest) (load h src)) (by omega)
    refine ⟨hbase, hlen, havail, fun x hx => (hcells x fun o ho ho' => ?_).trans ?_⟩
    · rw [hsucc] at ho ho'
      exact hx o (by omega) (by omega)
    · exact putByte_cells _ (hx _ (Nat.le_refl _) (by omega))

/-- The bytes outside of the destination stay. -/
theorem copyBytes_off (n : Nat) : ∀ {dest src : Word} {h : Heap}, offset h dest + n < 2 ^ 32 →
    o < offset h dest ∨ offset h dest + n ≤ o → byte (copyBytes n dest src h) o = byte h o := by
  induction n with
  | zero => exact fun _ _ => rfl
  | succ n ih =>
    intro dest src h hd ho
    have hsucc : offset (putByte h (offset h dest) (load h src)) (dest + 1#32) =
      offset h dest + 1 := offset_succ (h := h) (by omega)
    refine (@ih (dest + 1#32) (src + 1#32) _ (by omega) (by omega)).trans ?_
    rw [byte_putByte, if_neg (by omega)]

/-- Between ranges that are apart, the bytes of the source arrive. -/
theorem copyBytes_byte (n : Nat) : ∀ {dest src : Word} {h : Heap}, offset h dest + n < 2 ^ 32 →
    offset h src + n < 2 ^ 32 →
    offset h dest + n ≤ offset h src ∨ offset h src + n ≤ offset h dest → ∀ k < n,
      byte (copyBytes n dest src h) (offset h dest + k) = byte h (offset h src + k) := by
  induction n with
  | zero => exact fun _ _ _ k hk => absurd hk (Nat.not_lt_zero k)
  | succ n ih =>
    intro dest src h hd hs hapart k hk
    have hdest : offset (putByte h (offset h dest) (load h src)) (dest + 1#32) =
      offset h dest + 1 := offset_succ (h := h) (by omega)
    have hsrc : offset (putByte h (offset h dest) (load h src)) (src + 1#32) =
      offset h src + 1 := offset_succ (h := h) (by omega)
    cases k with
    | zero =>
      -- the loop has passed this byte
      refine (@copyBytes_off _ n (dest + 1#32) (src + 1#32) _ (by omega) (by omega)).trans ?_
      rw [byte_putByte, Nat.add_zero, if_pos rfl]
      rfl
    | succ k =>
      have hk' := @ih (dest + 1#32) (src + 1#32) (putByte h (offset h dest) (load h src))
        (by omega) (by omega) (by omega) k
        (Nat.lt_of_succ_lt_succ hk)
      rw [hdest, hsrc, byte_putByte, if_neg (by omega)] at hk'
      have hd1 : offset h dest + (k + 1) = offset h dest + 1 + k := by omega
      have hs1 : offset h src + (k + 1) = offset h src + 1 + k := by omega
      rw [hd1, hs1]
      exact hk'

/-! ## `realloc`

`realloc` is a `malloc`, a copy and a `free`. The copy is measured by the old block, tags
included, and so may be longer than what was asked for; `Overruns` is when it is longer than the
block that `malloc` takes, and everything here is about the other case.

`Moved` is what happens to the old block, whether or not a new one was found; `Grown` is the call
for the pointer of a request for no bytes, where there is no block to give back and the header
that is read is the word in front of the array. -/

theorem offset_pointer (hfits : h.base.toNat + 4 * h.len ≤ 2 ^ 32) (hi : 0 ≤ i)
    (hlen : i + 1 < h.len) : (offset h (h.pointer i) : Int) = 4 * (i + 1) := by
  have hp := pointer_toNat hfits hi hlen
  have hsub : (h.pointer i - h.base).toNat = (h.pointer i).toNat - h.base.toNat :=
    BitVec.toNat_sub_of_le (by rw [BitVec.le_def]; omega)
  unfold offset
  omega

/-- Bytes copied into the payload of the block `j`. -/
structure Copied (h : Heap) (j k : Int) (src : Word) (m : Nat) (h' : Heap) : Prop where
  base : h'.base = h.base
  len : h'.len = h.len
  avail : h'.avail = h.avail
  frame : ∀ x, ¬(j < x ∧ x < j + k - 1) → h'.cells x = h.cells x
  bytes : offset h src + m < 2 ^ 32 →
    (offset h src + m : Int) ≤ 4 * (j + 1) ∨ 4 * (j + k - 1) ≤ (offset h src : Int) →
    ∀ o < m, byte h' (offset h (h.pointer j) + o) = byte h (offset h src + o)

theorem wp_memcpy (L : Layout h blk) (hlen : h.len ≤ 2 ^ 29) (hj : blk j = some b) (h2 : 2 ≤ j)
    (hend : j + b.size ≤ h.len - 2) {m : Word} (hm : m.toInt ≤ 4 * (b.size - 2)) :
    wp (memcpy (h.pointer j) src m) (fun _ => Copied h j b.size src m.toInt.toNat)
      (fun _ _ => False) h := by
  have hpos := (L.tiling.inside hj).2.2
  have hfits := L.fits
  have hoff := offset_pointer hfits (i := j) (by omega) (by omega)
  have hsize : 4 ≤ 4 * b.size := by omega
  unfold memcpy
  rw [wp_modify]
  obtain ⟨hbase, hlen', havail, hcells⟩ := @copyBytes_words m.toInt.toNat
    (h.pointer j) src h (by omega)
  refine ⟨hbase, hlen', havail, fun x hx => hcells x fun o ho ho' => ?_, fun hs hapart o ho => ?_⟩
  · omega
  · exact copyBytes_byte m.toInt.toNat (by omega) hs (by omega) o ho

/-- What `realloc` does with the block `i`: it is given back, and there is a new one or none. -/
inductive Moved (h : Heap) (blk : Blocks) (i : Int) (b : Block) (n q : Word) (h' : Heap) : Prop
  | failed (blk' : Blocks) (links' : List Int) (hq : q = 0)
      (hsmall : ∀ i b, blk i = some b → b.free = true → b.size < ints n)
      (I : Inv h' blk' links') (v : Gave h blk i h' blk')
  | moved (j k : Int) (blk' : Blocks) (links' : List Int) (hq : q = h.pointer j)
      (hroom : ∃ c, blk j = some c ∧ c.free = true ∧ k ≤ c.size) (hk : ints n ≤ k)
      (hfit : min (n.toNat : Int) (4 * b.size) ≤ 4 * (k - 2))
      (I : Inv h' blk' links') (hbase : h'.base = h.base) (hlen : h'.len = h.len)
      (taken : ∀ l c, c.free = false →
        (blk' l = some c ↔ (blk l = some c ∧ l ≠ i) ∨ (l = j ∧ c = ⟨k, false⟩)))
      (frame : ∀ l c, blk l = some c → c.free = false → l ≠ i → ∀ x, l ≤ x → x < l + c.size →
        h'.cells x = h.cells x)
      (bytes : ∀ o : Nat, o < n.toNat → (o : Int) < 4 * (b.size - 2) →
        byte h' (offset h (h.pointer j) + o) = byte h (offset h (h.pointer i) + o))

theorem wp_free (I : Inv h blk links) (hi : blk i = some b) (htaken : b.free = false)
    (h2 : 2 ≤ i) (hend : i + b.size ≤ h.len - 2) :
    wp (free (h.pointer i))
      (fun _ h' => ∃ blk' links', Inv h' blk' links' ∧ Gave h blk i h' blk') (fun _ _ => False)
      h := by
  obtain ⟨_, h', hr, hg⟩ := wp_returns (I.wp_free hi htaken h2 hend)
  unfold wp
  rw [free_eq hr]
  exact hg

/-- A pointer to the same array. -/
theorem pointer_congr (hbase : h'.base = h.base) (i : Int) : h'.pointer i = h.pointer i := by
  unfold Heap.pointer
  rw [hbase]

/-- The number of bytes that `realloc` copies from a block. -/
theorem toInt_count (hi : h.size (h.index (h.pointer i)) = b.size) (h0 : 0 ≤ b.size)
    (hsz : b.size < 2 ^ 29) (n : Word) :
    (count h (h.pointer i) n).toInt = min (n.toNat : Int) (4 * b.size) := by
  have hnat : ((BitVec.ofInt 32 (b.size * 4)).toNat : Int) = b.size * 4 := by
    rw [BitVec.toNat_ofInt]
    omega
  have hcount : ((count h (h.pointer i) n).toNat : Int) = min (n.toNat : Int) (4 * b.size) := by
    unfold count
    rw [hi]
    dsimp only
    split
    · rename_i hgt
      rw [gt_iff_lt, BitVec.lt_def] at hgt
      omega
    · rename_i hle
      rw [gt_iff_lt, BitVec.lt_def] at hle
      omega
  rw [BitVec.toInt_eq_toNat_of_lt (by omega), hcount]

theorem le_of_fits {p n : Word} {k : Int} (hno : ¬Overruns h p n) (hp : p ≠ 0) (hn : n ≠ 0)
    (ht : h.isTaken (h.index p) = true) (hg : granted h n = some k) :
    (count h p n).toInt ≤ 4 * (k - 2) := by
  apply Int.not_lt.mp
  intro hlt
  apply hno
  refine ⟨hp, hn, ht, ?_⟩
  rw [hg]
  exact decide_eq_true hlt

/-- A request that `malloc` can round up gets a block that it fits into. -/
theorem fits_of_roundable {p n : Word} (hr : n.toNat ≤ 2 ^ 32 - 4) : ¬Overruns h p n := by
  rintro ⟨-, -, -, hany⟩
  obtain ⟨k, hg, hlt⟩ := Option.any_eq_true _ _ |>.mp hany
  have hlt := of_decide_eq_true hlt
  have hk := le_granted hg
  rw [ints_eq_need hr] at hk
  have hle : (count h p n).toNat ≤ n.toNat := by
    unfold count
    dsimp only
    split
    · rename_i hgt
      rw [gt_iff_lt, BitVec.lt_def] at hgt
      exact Nat.le_of_lt hgt
    · exact Nat.le_refl _
  have hint : (count h p n).toInt ≤ (count h p n).toNat := by
    rw [BitVec.toInt_eq_toNat_cond]
    split <;> omega
  unfold need at hk
  omega

theorem wp_realloc (I : Inv h blk links) (hlen : h.len ≤ 2 ^ 29) (hi : blk i = some b)
    (htaken : b.free = false) (h2 : 2 ≤ i) (hend : i + b.size ≤ h.len - 2) {n : Word} (hn : n ≠ 0)
    (hno : ¬Overruns h (h.pointer i) n) :
    wp (realloc (h.pointer i) n) (Moved h blk i b n) (fun _ _ => False) h := by
  have hbpos := (I.tiling.inside hi).2.2
  have hne := pointer_ne I.fits (i := i) (by omega) (by omega)
  have hidx := index_pointer I.fits (i := i) (by omega) (by omega)
  have ht : h.isTaken (h.index (h.pointer i)) = true := by
    rw [hidx, I.isTaken_eq hi, htaken]
    rfl
  have hm := toInt_count (h := h) (i := i) (b := b) (by rw [hidx, I.size_eq hi]) (by omega)
    (by omega) n
  unfold realloc
  rw [wp_ite, if_neg hne.1, wp_ite, if_neg hn, wp_bind, wp_get, wp_ite, ht, if_neg (by decide)]
  refine wp_seq (wp_malloc_found I hn) fun q h₁ a => ?_
  dsimp only
  cases a with
  | none _ hq hh hsmall =>
    rw [hh, hq, wp_ite, if_neg fun h0 => h0 rfl]
    exact wp_seq (wp_free I hi htaken h2 hend) fun _ h' ⟨blk', links', I', v⟩ =>
      .failed blk' links' rfl hsmall I' v
  | block j k blk₁ links₁ hg hq I₁ t hk =>
    have hfit := le_of_fits hno hne.1 hn ht hg
    obtain ⟨c, hc, hcf, hkc⟩ := t.inFree
    have hj : blk₁ j = some ⟨k, false⟩ := (t.taken j _ rfl).mpr (.inr ⟨rfl, rfl⟩)
    have hi₁ : blk₁ i = some b := (t.taken i b htaken).mpr (.inl hi)
    have hjin := I.free_inside hc hcf
    have hij : i ≠ j := taken_ne_free hi hc htaken hcf
    have hap := I.tiling.apart hi hc hij
    have hqne := pointer_ne I.fits (i := j) (by omega) (by omega)
    have hlen₁ := t.len
    have hjp : h₁.pointer j = h.pointer j := pointer_congr t.base j
    have hip : h₁.pointer i = h.pointer i := pointer_congr t.base i
    have hoi := offset_pointer I.fits (i := i) (by omega) (by omega)
    have hoff : ∀ a, offset h₁ a = offset h a := fun a => by
      unfold offset
      rw [t.base]
    rw [hq, wp_ite, if_pos hqne.1, ← hjp]
    refine wp_seq (wp_memcpy I₁.toLayout (by omega) hj (by omega)
      (by show j + k ≤ _; omega) (by show _ ≤ 4 * (k - 2); exact hfit)) fun _ h₂ w => ?_
    rw [hm] at hfit w
    have I₂ : Inv h₂ blk₁ links₁ := I₁.payload hj rfl w.base w.len w.avail w.frame
    have hip₂ : h₂.pointer i = h.pointer i := (pointer_congr w.base i).trans hip
    rw [← hip₂]
    refine wp_seq (wp_free I₂ hi₁ htaken h2 (by rw [w.len, t.len]; exact hend))
      fun _ h' ⟨blk', links', I', v⟩ => ?_
    rw [wp_pure]
    refine .moved j k blk' links' hjp ⟨c, hc, hcf, hkc⟩ hk hfit I' ?_ ?_ (fun l e he => ?_)
      (fun l e hl he hne x hx hx' => ?_) fun o ho ho' => ?_
    · exact v.base.trans (w.base.trans t.base)
    · exact v.len.trans (w.len.trans t.len)
    · rw [v.taken l e he, t.taken l e he]
      constructor
      · rintro ⟨hl | hl, hne⟩
        · exact .inl ⟨hl, hne⟩
        · exact .inr hl
      · rintro (⟨hl, hne⟩ | ⟨rfl, rfl⟩)
        · exact ⟨.inl hl, hne⟩
        · exact ⟨.inr ⟨rfl, rfl⟩, Ne.symm hij⟩
    · have hl₁ : blk₁ l = some e := (t.taken l e he).mpr (.inl hl)
      have hlj : l ≠ j := taken_ne_free hl hc he hcf
      have hlap : l + e.size ≤ j ∨ j + k ≤ l := I₁.tiling.apart hl₁ hj hlj
      have hlpos := (I.tiling.inside hl).2.2
      calc h'.cells x = h₂.cells x := v.frame l e hl₁ he hne x hx hx'
        _ = h₁.cells x := w.frame x (by show ¬(j < x ∧ x < j + k - 1); omega)
        _ = h.cells x := t.frame l e hl he x hx hx'
    · -- the words of the new block stay when the old one goes, and those of the old one stood still
      -- when the new one was taken
      have hsrc := w.bytes (by rw [hoff]; omega) (by rw [hoff]; show _ ∨ 4 * (j + k - 1) ≤ _; omega)
        o (by omega)
      rw [hjp, hoff, hoff] at hsrc
      have hoj := offset_pointer I.fits (i := j) (by omega) (by omega)
      calc byte h' (offset h (h.pointer j) + o) = byte h₂ (offset h (h.pointer j) + o) :=
            byte_congr (v.frame j _ hj rfl (Ne.symm hij) _ (by omega) (by show _ < j + k; omega))
        _ = byte h₁ (offset h (h.pointer i) + o) := hsrc
        _ = byte h (offset h (h.pointer i) + o) :=
            byte_congr (t.frame i b hi htaken _ (by omega) (by omega))

/-- What `realloc` does with the pointer of a request for no bytes: nothing, or it takes a block. -/
inductive Grown (h : Heap) (blk : Blocks) (q : Word) (h' : Heap) : Prop
  | same (hq : q = 0) (hh : h' = h)
  | block (j k : Int) (blk' : Blocks) (links' : List Int) (hq : q = h.pointer j)
      (hin : 2 ≤ j ∧ j + 4 ≤ h.len - 2) (I : Inv h' blk' links') (hbase : h'.base = h.base)
      (hlen : h'.len = h.len)
      (taken : ∀ l c, c.free = false →
        (blk' l = some c ↔ blk l = some c ∨ (l = j ∧ c = ⟨k, false⟩)))
      (frame : ∀ l c, blk l = some c → c.free = false → ∀ x, l ≤ x → x < l + c.size →
        h'.cells x = h.cells x)

theorem wp_free_nothing {p : Word} (hp : p = 0 ∨ p = h.base) :
    wp (free p) (fun _ h' => h' = h) (fun _ _ => False) h := by
  have hr := free_eq (free_nothing hp)
  unfold wp
  rw [hr]

theorem wp_malloc_grown (I : Inv h blk links) {n : Word} (hn : n ≠ 0) :
    wp (malloc n) (Grown h blk) (fun _ _ => False) h := by
  refine wp_mono (wp_malloc I n) (fun q h' a => ?_) fun _ _ hf => hf
  cases a with
  | nothing hb _ _ => exact absurd hb hn
  | none _ hq hh _ => exact .same hq hh
  | block j k blk' links' _ hq I' t hk =>
    obtain ⟨c, hc, hcf, hkc⟩ := t.inFree
    have hin := I.free_inside hc hcf
    exact .block j k blk' links' hq ⟨hin.1, by omega⟩ I' t.base t.len t.taken t.frame

theorem wp_realloc_base (I : Inv h blk links) (hlen : h.len ≤ 2 ^ 29) {n : Word} (hn : n ≠ 0)
    (hno : ¬Overruns h h.base n) : wp (realloc h.base n) (Grown h blk) (fun _ _ => False) h := by
  unfold realloc
  by_cases h0 : h.base = 0
  · rw [wp_ite, if_pos h0]
    exact wp_malloc_grown I hn
  · rw [wp_ite, if_neg h0, wp_ite, if_neg hn, wp_bind, wp_get, wp_ite]
    split
    · exact .same rfl rfl
    · rename_i htaken
      have ht : h.isTaken (h.index h.base) = true := by simpa using htaken
      refine wp_seq (wp_malloc_found I hn) fun q h₁ a => ?_
      dsimp only
      cases a with
      | none _ hq hh _ =>
        rw [hq, hh, wp_ite, if_neg fun h0 => h0 rfl]
        exact wp_seq (wp_free_nothing (.inr rfl)) fun _ h' hh => .same rfl hh
      | block j k blk₁ links₁ hg hq I₁ t hk =>
        have hfit := le_of_fits hno h0 hn ht hg
        obtain ⟨c, hc, hcf, hkc⟩ := t.inFree
        have hj : blk₁ j = some ⟨k, false⟩ := (t.taken j _ rfl).mpr (.inr ⟨rfl, rfl⟩)
        have hjin := I.free_inside hc hcf
        have hqne := pointer_ne I.fits (i := j) (by omega) (by omega)
        have hbig := four_le_ints n
        have hlen₁ := t.len
        have hjp : h₁.pointer j = h.pointer j := pointer_congr t.base j
        rw [hq, wp_ite, if_pos hqne.1, ← hjp]
        refine wp_seq (wp_memcpy I₁.toLayout (by omega) hj (by omega)
          (by show j + k ≤ _; omega) (by show _ ≤ 4 * (k - 2); exact hfit)) fun _ h₂ w => ?_
        have hb₂ : h₂.base = h.base := w.base.trans t.base
        rw [← hb₂]
        refine wp_seq (wp_free_nothing (.inr rfl)) fun _ h' hh => ?_
        rw [wp_pure, hh]
        refine .block j k blk₁ links₁ hjp ⟨hjin.1, by omega⟩
          (I₁.payload hj rfl w.base w.len w.avail w.frame) hb₂ (w.len.trans t.len) t.taken
          fun l e hl he x hx hx' => ?_
        have hl₁ : blk₁ l = some e := (t.taken l e he).mpr (.inl hl)
        have hlap : l + e.size ≤ j ∨ j + k ≤ l :=
          I₁.tiling.apart hl₁ hj (taken_ne_free hl hc he hcf)
        calc h₂.cells x = h₁.cells x := w.frame x (by show ¬(j < x ∧ x < j + k - 1); omega)
          _ = h.cells x := t.frame l e hl he x hx hx'

/-! ## Runs

Which pointers a program holds is not in the heap, so the state has a field for it; `Held` says
that the blocks handed out are exactly those in use between the two ends. `realloc` is one step,
that gives a block back and hands one out. A run may contain calls that fail, and writes by the
program, since the question is what is in a payload at the time of the call. -/

variable {s t : State} {base : Word} {live : Int → Bool}

theorem State.handOut_nothing {q : Word} (hq : q = 0 ∨ q = h.base) :
    s.handOut h q = ⟨h, s.live⟩ := by
  unfold State.handOut
  rw [if_pos hq]

theorem State.giveBack_nothing {p : Word} (hp : p = 0 ∨ p = h.base) :
    s.giveBack h p = ⟨h, s.live⟩ := by
  unfold State.giveBack
  rw [if_pos hp]

/-- The blocks handed out are those in use between the two ends. -/
def Held (live : Int → Bool) (blk : Blocks) : Prop :=
  ∀ i, live i = true ↔ ∃ b, blk i = some b ∧ b.free = false ∧ i ≠ 0 ∧ i ≠ INTS - 2

theorem Held.handOut {k : Int} (g : Held live blk) (hj : 2 ≤ j) (hj' : j < INTS - 2)
    (taken : ∀ l c, c.free = false → (blk' l = some c ↔ blk l = some c ∨ (l = j ∧ c = ⟨k, false⟩))) :
    Held (Function.update live j true) blk' :=
  live_handOut g (by omega) (by omega) taken

theorem Held.giveBack (g : Held live blk)
    (taken : ∀ l c, c.free = false → (blk' l = some c ↔ blk l = some c ∧ l ≠ i)) :
    Held (Function.update live i false) blk' :=
  live_giveBack g taken

/-- One block goes and another one comes. -/
theorem Held.move {k : Int} (g : Held live blk) (hj : 2 ≤ j) (hj' : j < INTS - 2)
    (taken : ∀ l c, c.free = false →
      (blk' l = some c ↔ (blk l = some c ∧ l ≠ i) ∨ (l = j ∧ c = ⟨k, false⟩))) :
    Held (Function.update (Function.update live i false) j true) blk' := by
  have hback : Held (Function.update live i false) (Function.update blk i none) := by
    refine g.giveBack fun l c _ => ?_
    by_cases hl : l = i
    · rw [hl, Function.update_self]
      exact ⟨(fun h0 => by cases h0), fun h0 => absurd rfl h0.2⟩
    · rw [Function.update_of_ne hl]
      exact ⟨fun hc => ⟨hc, hl⟩, fun hc => hc.1⟩
  refine hback.handOut (k := k) hj hj' fun l c hc => ?_
  rw [taken l c hc]
  by_cases hl : l = i
  · rw [hl, Function.update_self]
    constructor
    · rintro (h0 | h0)
      · exact absurd rfl h0.2
      · exact .inr h0
    · rintro (h0 | h0)
      · cases h0
      · exact .inr h0
  · rw [Function.update_of_ne hl]
    exact or_congr_left ⟨fun hc => hc.1, fun hc => ⟨hc, hl⟩⟩

/-- What holds in every state. -/
structure Good (s : State) (blk : Blocks) (links : List Int) : Prop where
  inv : Inv s.heap blk links
  len_eq : s.heap.len = INTS
  held : Held s.live blk

namespace Good

theorem len_le (g : Good s blk links) : s.heap.len ≤ 2 ^ 29 := by
  rw [g.len_eq]
  decide

/-- The block of a live pointer. -/
theorem block (g : Good s blk links) (hi : s.live i = true) :
    ∃ b, blk i = some b ∧ b.free = false ∧ 2 ≤ i ∧ i + b.size ≤ s.heap.len - 2 ∧ 4 ≤ b.size := by
  obtain ⟨b, hb, hbf, h0, hl⟩ := (g.held i).mp hi
  exact ⟨b, hb, hbf, g.inv.inner hb h0 (g.len_eq ▸ hl)⟩

/-- The header behind a pointer, in an array at the same place. -/
theorem index (g : Good s blk links) (hbase : h.base = s.heap.base) (hi : 2 ≤ i)
    (hi' : i < s.heap.len - 2) : h.index (s.heap.pointer i) = i ∧ s.heap.pointer i ≠ 0 ∧
      s.heap.pointer i ≠ h.base := by
  have hback := index_pointer g.inv.fits (i := i) (by omega) (by omega)
  unfold Heap.index at hback ⊢
  rw [hbase]
  exact ⟨hback, pointer_ne g.inv.fits (by omega) (by omega)⟩

/-- A block comes. -/
theorem handOut (g : Good s blk links) {k : Int} {links' : List Int} (I : Inv h blk' links')
    (hbase : h.base = s.heap.base) (hlen : h.len = s.heap.len) (hj : 2 ≤ j)
    (hj' : j < s.heap.len - 2)
    (taken : ∀ l c, c.free = false → (blk' l = some c ↔ blk l = some c ∨ (l = j ∧ c = ⟨k, false⟩))) :
    Good (s.handOut h (s.heap.pointer j)) blk' links' := by
  obtain ⟨hidx, h0, hb⟩ := g.index hbase hj hj'
  refine ⟨I, hlen.trans g.len_eq, ?_⟩
  unfold State.handOut
  rw [if_neg (not_or.mpr ⟨h0, hb⟩), hidx]
  exact g.held.handOut hj (g.len_eq ▸ hj') taken

/-- A block goes. -/
theorem giveBack (g : Good s blk links) {links' : List Int} (hi : s.live i = true)
    (I : Inv h blk' links') (v : Gave s.heap blk i h blk') :
    Good (s.giveBack h (s.heap.pointer i)) blk' links' := by
  obtain ⟨b, hb, -, h2, hend, hbig⟩ := g.block hi
  obtain ⟨hidx, h0, hne⟩ := g.index v.base h2 (by omega)
  refine ⟨I, v.len.trans g.len_eq, ?_⟩
  unfold State.giveBack
  rw [if_neg (not_or.mpr ⟨h0, hne⟩), hidx]
  exact g.held.giveBack v.taken

theorem malloc (g : Good s blk links) {bytes q : Word} (a : Answer s.heap blk bytes q h) :
    ∃ blk' links', Good (s.handOut h q) blk' links' := by
  cases a with
  | nothing _ hq hh =>
    subst hh
    exact ⟨blk, links, State.handOut_nothing (.inr hq) ▸ g⟩
  | none _ hq hh _ =>
    subst hh
    exact ⟨blk, links, State.handOut_nothing (.inl hq) ▸ g⟩
  | block j k blk' links' _ hq I t _ =>
    obtain ⟨c, hc, hcf, hkc⟩ := t.inFree
    have hin := g.inv.free_inside hc hcf
    subst hq
    exact ⟨blk', links', g.handOut I t.base t.len hin.1 (by omega) t.taken⟩

/-- `free` of what the program holds. -/
theorem free (g : Good s blk links) {p : Word} (hp : p = 0 ∨ s.Allocated p) :
    ∃ h', free p s.heap = .ok () h' ∧ ∃ blk' links', Good (s.giveBack h' p) blk' links' := by
  by_cases hb : p = 0 ∨ p = s.heap.base
  · exact ⟨s.heap, free_eq (free_nothing hb), blk, links, State.giveBack_nothing hb ▸ g⟩
  · obtain ⟨h0, hne⟩ := not_or.mp hb
    obtain ⟨hlive, hpi⟩ := (hp.resolve_left h0).resolve_left hne
    generalize s.heap.index p = i at hlive hpi
    subst hpi
    obtain ⟨b, hb, hbf, h2, hend, -⟩ := g.block hlive
    obtain ⟨_, h', hr, blk', links', I, v⟩ := wp_returns (wp_free g.inv hb hbf h2 hend)
    exact ⟨h', hr, blk', links', g.giveBack hlive I v⟩

theorem moved (g : Good s blk links) (hi : s.live i = true) {q n : Word} {b : Block}
    (m : Moved s.heap blk i b n q h) :
    ∃ blk' links', Good ((s.giveBack h (s.heap.pointer i)).handOut h q) blk' links' := by
  cases m with
  | failed blk' links' hq _ I v =>
    exact ⟨blk', links', State.handOut_nothing (.inl hq) ▸ g.giveBack hi I v⟩
  | moved j k blk' links' hq hroom hk _ I hbase hlen taken _ _ =>
    have hbig := four_le_ints n
    obtain ⟨c, hc, hcf, hkc⟩ := hroom
    have hin := g.inv.free_inside hc hcf
    obtain ⟨d, -, -, h2, hend, hbig⟩ := g.block hi
    obtain ⟨hidx, h0, hne⟩ := g.index hbase h2 (by omega)
    obtain ⟨hidx', h0', hne'⟩ := g.index hbase hin.1 (by omega)
    refine ⟨blk', links', I, hlen.trans g.len_eq, ?_⟩
    have hlast := g.len_eq
    unfold State.handOut State.giveBack
    rw [hq, if_neg (not_or.mpr ⟨h0', hne'⟩), if_neg (not_or.mpr ⟨h0, hne⟩), hidx, hidx']
    exact g.held.move hin.1 (by omega) taken

theorem grown (g : Good s blk links) {q : Word} (m : Grown s.heap blk q h) :
    ∃ blk' links', Good ((s.giveBack h s.heap.base).handOut h q) blk' links' := by
  cases m with
  | same hq hh =>
    subst hh
    rw [State.giveBack_nothing (.inr rfl), State.handOut_nothing (.inl hq)]
    exact ⟨blk, links, g⟩
  | block j k blk' links' hq hin I hbase hlen taken _ =>
    subst hq
    rw [State.giveBack_nothing (.inr hbase.symm)]
    exact ⟨blk', links', g.handOut I hbase hlen hin.1 (by omega) taken⟩

theorem realloc (g : Good s blk links) {p n : Word}
    (hmay : p = 0 ∨ s.Allocated p ∧ ¬Overruns s.heap p n) :
    ∃ q h', realloc p n s.heap = .ok q h' ∧
      ∃ blk' links', Good ((s.giveBack h' p).handOut h' q) blk' links' := by
  by_cases h0 : p = 0
  · subst h0
    obtain ⟨q, h', hr, a⟩ := wp_returns (wp_malloc g.inv n)
    refine ⟨q, h', hr, ?_⟩
    rw [State.giveBack_nothing (.inl rfl)]
    exact g.malloc a
  · obtain ⟨hp, hno⟩ := hmay.resolve_left h0
    by_cases hn : n = 0
    · subst hn
      obtain ⟨h', hr, blk', links', g'⟩ := g.free (.inr hp)
      refine ⟨0, h', ?_, blk', links', State.handOut_nothing (.inl rfl) ▸ g'⟩
      unfold UserHeap.realloc
      rw [if_neg h0, if_pos rfl]
      simp only [bind, EStateM.bind, hr]
      rfl
    · by_cases hb : p = s.heap.base
      · subst hb
        obtain ⟨q, h', hr, m⟩ := wp_returns (wp_realloc_base g.inv g.len_le hn hno)
        exact ⟨q, h', hr, g.grown m⟩
      · obtain ⟨hlive, hpi⟩ := hp.resolve_left hb
        generalize s.heap.index p = i at hlive hpi
        subst hpi
        obtain ⟨b, hb, hbf, h2, hend, -⟩ := g.block hlive
        obtain ⟨q, h', hr, m⟩ := wp_returns (wp_realloc g.inv g.len_le hb hbf h2 hend hn hno)
        exact ⟨q, h', hr, g.moved hlive m⟩

theorem write (g : Good s blk links) (hi : s.live i = true) {o : Nat} {v : BitVec 8}
    (hlo : i < (o / 4 : Nat)) (hhi : ((o / 4 : Nat) : Int) < s.heap.footerFromHeader i) :
    Good { s with heap := putByte s.heap o v } blk links := by
  obtain ⟨b, hb, hbf, -⟩ := g.block hi
  unfold Heap.footerFromHeader at hhi
  rw [g.inv.size_eq hb] at hhi
  refine ⟨g.inv.payload hb hbf rfl rfl rfl fun y hy => putByte_cells v fun hyo => hy ?_, g.len_eq,
    g.held⟩
  rw [hyo]
  exact ⟨hlo, hhi⟩

/-- The word in front of the array is no word of the heap. -/
theorem front (g : Good s blk links) (v : Word) :
    Good { s with heap := s.heap.put (-1) v.toInt } blk links := by
  have hput : ∀ {x : Int}, 0 ≤ x → (s.heap.put (-1) v.toInt).cells x = s.heap.cells x := by
    intro x hx
    rw [Heap.put_cells, if_neg (by omega)]
  refine ⟨⟨g.inv.toLayout.congr rfl rfl fun hj => ?_, g.inv.linked.congr fun j hj => ?_,
    g.inv.listed⟩, g.len_eq, g.held⟩
  · obtain ⟨hlo, -, hpos⟩ := g.inv.tiling.inside hj
    exact ⟨hput hlo, hput (by omega)⟩
  · have h2 := (g.inv.listed_block hj).2.1
    exact ⟨hput (by omega), hput (by omega)⟩

/-- One step. -/
theorem step (g : Good s blk links) {op : Op} (hs : step s op = some t) :
    ∃ blk' links', Good t blk' links' := by
  cases op with
  | malloc bytes =>
    obtain ⟨q, h', hr, a⟩ := wp_returns (wp_malloc g.inv bytes)
    simp only [UserHeap.step, hr] at hs
    obtain rfl := Option.some.inj hs
    exact g.malloc a
  | free p =>
    simp only [UserHeap.step] at hs
    split at hs
    · rename_i hp
      obtain ⟨h', hr, hg⟩ := g.free hp
      rw [hr] at hs
      obtain rfl := Option.some.inj hs
      exact hg
    · cases hs
  | realloc p n =>
    simp only [UserHeap.step] at hs
    split at hs
    · rename_i hp
      obtain ⟨q, h', hr, hg⟩ := g.realloc hp
      rw [hr] at hs
      obtain rfl := Option.some.inj hs
      exact hg
    · cases hs
  | write i o v =>
    simp only [UserHeap.step] at hs
    split at hs
    · rename_i hw
      obtain rfl := Option.some.inj hs
      exact ⟨blk, links, g.write hw.1 hw.2.1 hw.2.2⟩
    · cases hs
  | front v =>
    obtain rfl := Option.some.inj hs
    exact ⟨blk, links, g.front v⟩

end Good

/-- Reached from `heap_init`, with the array anywhere in memory. -/
def Reachable (base : Word) (s : State) : Prop :=
  ∃ cells ops, base.toNat + 4 * INTS ≤ 2 ^ 32 ∧ runs step (State.init base cells) ops = some s

theorem Reachable.good (hs : Reachable base s) : ∃ blk links, Good s blk links := by
  obtain ⟨cells, ops, hfits, hr⟩ := hs
  have I : Inv (heapInit base cells) (initialBlocks INTS) [2] := initialHeap_inv (by decide) hfits
  have g : Good (State.init base cells) (initialBlocks INTS) [2] := by
    refine ⟨I, rfl, fun i => ⟨fun h0 => (by cases h0), ?_⟩⟩
    rintro ⟨c, hc, hf, h0, hl⟩
    rcases (initialBlocks_eq (by decide)).mp hc with ⟨rfl, -⟩ | ⟨-, rfl⟩ | ⟨rfl, -⟩
    · exact absurd rfl h0
    · cases hf
    · exact absurd rfl hl
  refine runs_inv (fun s => ∃ blk links, Good s blk links) ?_ ⟨_, _, g⟩
    (RunOk.of_forall (fun _ _ => trivial) ops _) hr
  rintro s op t ⟨blk, links, g⟩ - ht
  exact g.step ht

/-! ## What is preserved

`Preserves` is about one call in one state, in bytes and addresses and with none of the
model's blocks in it. The condition is about blocks, and the blocks of a state are not unique by
definition but by `Layout.unique`, so the theorem gives them along with the invariant. -/

/-- The bytes that the holder of a pointer may use. -/
def payload (h : Heap) (p : Word) : Nat :=
  if p = h.base then 0 else (4 * (h.size (h.index p) - 2)).toNat

/-- `realloc` preserves data: the new block begins with the bytes of the old one and no other payload
changes, or there is no new block and nothing has changed. -/
def Preserves (s : State) (p n : Word) : Prop :=
  ∃ q h', realloc p n s.heap = .ok q h' ∧
    if q = 0 then h' = s.heap
    else
      (∀ k < min n.toNat (payload s.heap p),
        load h' (q + BitVec.ofNat 32 k) = load s.heap (p + BitVec.ofNat 32 k)) ∧
      ∀ r, s.Allocated r → r ≠ p → ∀ k < payload s.heap r,
        load h' (r + BitVec.ofNat 32 k) = load s.heap (r + BitVec.ofNat 32 k)

theorem load_add {a : Word} (hbase : h'.base = h.base) (hk : offset h a + k < 2 ^ 32) :
    load h' (a + BitVec.ofNat 32 k) = byte h' (offset h a + k) := by
  unfold load
  congr 1
  unfold offset at hk ⊢
  rw [hbase]
  have hkn : (BitVec.ofNat 32 k).toNat = k := by
    rw [BitVec.toNat_ofNat]
    exact Nat.mod_eq_of_lt (by omega)
  bv_omega

namespace Good

/-- The payload of a live pointer. -/
theorem payload_eq (g : Good s blk links) (hi : s.live i = true) (hb : blk i = some b) :
    (payload s.heap (s.heap.pointer i) : Int) = 4 * (b.size - 2) := by
  obtain ⟨c, hc, -, h2, hend, hbig⟩ := g.block hi
  obtain rfl : c = b := Option.some.inj (hc.symm.trans hb)
  obtain ⟨hidx, -, hne⟩ := g.index rfl h2 (by omega)
  unfold payload
  rw [if_neg hne, hidx, g.inv.size_eq hc]
  omega

/-- What leaves the blocks in use but one alone leaves the payloads but one alone. -/
theorem others (g : Good s blk links) {p : Word} (hbase : h.base = s.heap.base)
    (frame : ∀ l c, blk l = some c → c.free = false → p ≠ s.heap.pointer l → ∀ x, l ≤ x →
      x < l + c.size → h.cells x = s.heap.cells x) {r : Word} (hr : s.Allocated r) (hrp : r ≠ p)
    (hk : k < payload s.heap r) :
    load h (r + BitVec.ofNat 32 k) = load s.heap (r + BitVec.ofNat 32 k) := by
  rcases hr with hb | ⟨hlive, hri⟩
  · unfold payload at hk
    rw [if_pos hb] at hk
    exact absurd hk (Nat.not_lt_zero k)
  · generalize s.heap.index r = l at hlive hri
    subst hri
    obtain ⟨c, hc, hcf, h2, hend, -⟩ := g.block hlive
    have hlen := g.len_le
    have hpay := g.payload_eq hlive hc
    have hoff := offset_pointer g.inv.fits (i := l) (by omega) (by omega)
    rw [load_add hbase (by omega), load_add rfl (by omega)]
    exact byte_congr (frame l c hc hcf (Ne.symm hrp) _ (by omega) (by omega))

/-- With a free block that is large enough, or without a block to move. -/
theorem preserves (g : Good s blk links) {p n : Word} (hp : s.Allocated p) (hn : n ≠ 0)
    (hno : ¬Overruns s.heap p n)
    (hroom : p = s.heap.base ∨ ∃ i b, blk i = some b ∧ b.free = true ∧ ints n ≤ b.size) :
    Preserves s p n := by
  by_cases hb : p = s.heap.base
  · subst hb
    obtain ⟨q, h', hrun, m⟩ := wp_returns (wp_realloc_base g.inv g.len_le hn hno)
    refine ⟨q, h', hrun, ?_⟩
    cases m with
    | same hq hh => rw [if_pos hq]; exact hh
    | block j k blk' links' hq hin I hbase hlen taken frame =>
      obtain ⟨-, h0, -⟩ := g.index hbase hin.1 (by omega)
      rw [if_neg (hq ▸ h0)]
      refine ⟨fun k hk => ?_, fun r hr' hrp k hk => ?_⟩
      · unfold payload at hk
        rw [if_pos rfl, Nat.min_zero] at hk
        exact absurd hk (Nat.not_lt_zero k)
      · exact g.others hbase (fun l c hl hc _ => frame l c hl hc) hr' hrp hk
  · obtain ⟨hlive, hpi⟩ := hp.resolve_left hb
    generalize s.heap.index p = i at hlive hpi
    subst hpi
    obtain ⟨l, d, hd, hdf, hdn⟩ := hroom.resolve_left hb
    obtain ⟨b, hb, hbf, h2, hend, -⟩ := g.block hlive
    obtain ⟨q, h', hrun, m⟩ := wp_returns (wp_realloc g.inv g.len_le hb hbf h2 hend hn hno)
    refine ⟨q, h', hrun, ?_⟩
    cases m with
    | failed _ _ _ hsmall _ _ =>
      have hlt := hsmall l d hd hdf
      omega
    | moved j k blk' links' hq hroom hk hfit I hbase hlen taken frame bytes =>
      obtain ⟨c, hc, hcf, hkc⟩ := hroom
      have hin := g.inv.free_inside hc hcf
      have hbig := four_le_ints n
      have hlen29 := g.len_le
      have hpay := g.payload_eq hlive hb
      have hoi := offset_pointer g.inv.fits (i := i) (by omega) (by omega)
      have hoj := offset_pointer g.inv.fits (i := j) (by omega) (by omega)
      obtain ⟨-, h0, -⟩ := g.index hbase hin.1 (by omega)
      rw [if_neg (hq ▸ h0)]
      refine ⟨fun k hk => ?_, fun r hr' hrp k hk => ?_⟩
      · rw [hq, load_add hbase (by omega), load_add rfl (by omega)]
        exact bytes k (by omega) (by omega)
      · refine g.others hbase (fun l c hl hc hpl x hx hx' => ?_) hr' hrp hk
        exact frame l c hl hc (fun hli => hpl (hli ▸ rfl)) x hx hx'

/-- Without one, the block is gone and the heap is another. -/
theorem room_of_preserves (g : Good s blk links) {p n : Word} (hp : s.Allocated p) (hn : n ≠ 0)
    (hno : ¬Overruns s.heap p n) (hpres : Preserves s p n) :
    p = s.heap.base ∨ ∃ i b, blk i = some b ∧ b.free = true ∧ ints n ≤ b.size := by
  by_cases hb : p = s.heap.base
  · exact .inl hb
  · obtain ⟨hlive, hpi⟩ := hp.resolve_left hb
    generalize s.heap.index p = i at hlive hpi
    subst hpi
    obtain ⟨b, hb, hbf, h2, hend, -⟩ := g.block hlive
    obtain ⟨q, h', hrun, hsame⟩ := hpres
    cases wp_ok (wp_realloc g.inv g.len_le hb hbf h2 hend hn hno) hrun with
    | failed blk' links' hq _ I v =>
      rw [if_pos hq] at hsame
      subst hsame
      have hb' := g.inv.toLayout.unique I.toLayout hb
      exact absurd rfl ((v.taken i b hbf).mp hb').2
    | moved j k blk' links' _ hroom hk _ _ _ _ _ _ _ =>
      obtain ⟨c, hc, hcf, hkc⟩ := hroom
      exact .inr ⟨j, c, hc, hcf, Int.le_trans hk hkc⟩

end Good

/-- Where what `realloc` copies fits into the new block, it preserves data exactly when some free block
has the words that `malloc` looks for, or there is no block to move. Up to 2^32 - 4 bytes it always
fits, and the words are those that the request needs. -/
theorem realloc_preserves_iff (hs : Reachable base s) {p n : Word} (hp : s.Allocated p)
    (hn : n ≠ 0) :
    ∃ blk links, Inv s.heap blk links ∧
      (¬Overruns s.heap p n → (Preserves s p n ↔
        p = s.heap.base ∨ ∃ i b, blk i = some b ∧ b.free = true ∧ ints n ≤ b.size)) ∧
      (n.toNat ≤ 2 ^ 32 - 4 → ¬Overruns s.heap p n ∧ ints n = need n) := by
  obtain ⟨blk, links, g⟩ := hs.good
  exact ⟨blk, links, g.inv, fun hno => ⟨g.room_of_preserves hp hn hno, g.preserves hp hn hno⟩,
    fun hr => ⟨fits_of_roundable hr, ints_eq_need hr⟩⟩

/-- A state found by evaluation. -/
theorem reachable_of_eval (ops : List Op) (test : State → Bool)
    (h : (runs step (State.init 0x1000#32 fun _ => 0) ops).any test = true) :
    ∃ s, Reachable 0x1000#32 s ∧ test s = true := by
  obtain ⟨s, hr, ht⟩ := (Option.any_eq_true _ _).mp h
  exact ⟨s, ⟨_, ops, by decide, hr⟩, ht⟩

/-- Two blocks and the pointer of a request for nothing: the first block grows, and what cannot be
rounded up is asked for with the third pointer. -/
theorem realloc_preserves_iff_two : ∃ s, Reachable 0x1000#32 s ∧
    (∃ blk links, Inv s.heap blk links ∧
      (¬Overruns s.heap (s.heap.pointer 2) 100#32 → (Preserves s (s.heap.pointer 2) 100#32 ↔
        s.heap.pointer 2 = s.heap.base ∨
          ∃ i b, blk i = some b ∧ b.free = true ∧ ints 100#32 ≤ b.size)) ∧
      ((100#32).toNat ≤ 2 ^ 32 - 4 →
        ¬Overruns s.heap (s.heap.pointer 2) 100#32 ∧ ints 100#32 = need 100#32)) ∧
    Preserves s s.heap.base 0xfffffffd#32 := by
  obtain ⟨s, hs, ht⟩ := reachable_of_eval [.malloc 8#32, .malloc 0#32, .malloc 8#32]
    (fun s => decide (s.Allocated (s.heap.pointer 2)) &&
      decide (¬Overruns s.heap s.heap.base 0xfffffffd#32)) (by decide +kernel)
  obtain ⟨hlive, hno⟩ := Bool.and_eq_true_iff.mp ht
  refine ⟨s, hs, realloc_preserves_iff hs (of_decide_eq_true hlive) (by decide), ?_⟩
  obtain ⟨blk, links, -, hiff, -⟩ :=
    realloc_preserves_iff hs (p := s.heap.base) (n := 0xfffffffd#32) (.inl rfl) (by decide)
  exact (hiff (of_decide_eq_true hno)).mpr (.inl rfl)

/-- There is no room for 4 MB, and the block of 8 bytes is given back all the same. -/
theorem realloc_frees_on_failure : ¬∀ base s p n, Reachable base s → s.Allocated p → n ≠ 0 →
    Preserves s p n := by
  intro hall
  obtain ⟨s, hs, ht⟩ := reachable_of_eval [.malloc 8#32]
    (fun s => decide (s.Allocated (s.heap.pointer 2)) &&
      (realloc (s.heap.pointer 2) 0x400000#32).test
        (fun q h' => q = 0 && decide (h'.cells 2 ≠ s.heap.cells 2)) s.heap) (by decide +kernel)
  obtain ⟨hlive, hrun⟩ := Bool.and_eq_true_iff.mp ht
  obtain ⟨q, h', hr, hsame⟩ := hall _ s _ 0x400000#32 hs (of_decide_eq_true hlive) (by decide)
  obtain ⟨q', h'', hr', hrun⟩ := test_iff.mp hrun
  rw [hr] at hr'
  cases hr'
  obtain ⟨hq, hne⟩ := Bool.and_eq_true_iff.mp hrun
  rw [if_pos (of_decide_eq_true hq)] at hsame
  exact of_decide_eq_true hne (hsame ▸ rfl)

/-- A request that cannot be rounded up gets a block of four words, and the 108 bytes that are copied
into it go over the block behind. -/
example : (runs step (State.init 0x1000#32 fun _ => 0)
    [.malloc 100#32, .malloc 8#32, .malloc 8#32, .write 2 28 7#8, .free 0x1078#32]).any (fun s =>
      (realloc (s.heap.pointer 2) 0xfffffffd#32).test (fun q h' =>
        q = s.heap.pointer 29 && s.live 33 && h'.cells 34 != s.heap.cells 34) s.heap) = true := by
  decide +kernel

end OsKernel.UserHeap
