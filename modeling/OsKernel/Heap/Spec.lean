import OsKernel.Heap.Inv

/-!
# What `malloc` and `free` do

The blocks change by splices: `malloc` puts one or two blocks where a free one was, and `free`
puts one free block where the block and its free neighbours were. In between, some free blocks
are not in the list.

`Chained` is the invariant with a list `out` of the free blocks that have been taken off the
list. `remove` makes `out` longer by one, `makeAvail` and `makeTaken` use it up. With it, the
four cases of `free` are one: the block and zero to two neighbours are a range, `out` says
which neighbours, and the range becomes a block.

`OnlyLinks` is the frame condition of `remove` and of the links that `makeAvail` writes. Links
are in the second and third words of free blocks, which is why a block has four words at
least, and why a payload is never touched.
-/

set_option autoImplicit false

namespace OsKernel.KernelHeap

open Lib Prog

variable {h h' : Heap} {blk new : Blocks} {links out : List Int} {i n lo hi : Int} {b c : Block}

/-- The list holds the free blocks, less those in `out`. -/
structure Chained (h : Heap) (blk : Blocks) (links out : List Int) : Prop extends Layout h blk where
  linked : Linked h.next h.prev 0 h.avail links
  listed : ∀ i, i ∈ links ↔ (∃ b, blk i = some b ∧ b.free = true) ∧ i ∉ out

theorem Inv.chained (I : Inv h blk links) : Chained h blk links [] where
  toLayout := I.toLayout
  linked := I.linked
  listed i := (I.listed i).trans ⟨fun h => ⟨h, List.not_mem_nil⟩, fun h => h.1⟩

theorem taken_ne_free {j : Int} (hi : blk i = some b) (hj : blk j = some c) (htaken : b.free = false)
    (hfree : c.free = true) : i ≠ j := by
  rintro rfl
  rw [hi] at hj
  cases hj
  rw [htaken] at hfree
  cases hfree

namespace Chained

/-- The listed blocks are four words apart at least, and inside of the array. -/
theorem spaced (C : Chained h blk links out) {j : Int} (hi : i ∈ links) (hj : j ∈ links)
    (hne : i ≠ j) : i + 4 ≤ j ∨ j + 4 ≤ i := by
  obtain ⟨⟨b, hb, hfree⟩, -⟩ := (C.listed i).mp hi
  obtain ⟨⟨c, hc, hfree'⟩, -⟩ := (C.listed j).mp hj
  have hbig := (C.free_inside hb hfree).2.2
  have hbig' := (C.free_inside hc hfree').2.2
  rcases Int.lt_or_lt_of_ne hne with hlt | hlt
  · have hd := C.tiling.disjoint hb hc hlt
    exact .inl (by omega)
  · have hd := C.tiling.disjoint hc hb hlt
    exact .inr (by omega)

theorem two_le (C : Chained h blk links out) (hi : i ∈ links) : 2 ≤ i := by
  obtain ⟨⟨b, hb, hfree⟩, -⟩ := (C.listed i).mp hi
  exact (C.free_inside hb hfree).1

end Chained

/-- Only links of free blocks have changed. -/
def OnlyLinks (h h' : Heap) (blk : Blocks) : Prop :=
  ∀ x, h'.cells x = h.cells x ∨
    (∃ j b, blk j = some b ∧ b.free = true ∧ (x = j + 1 ∨ x = j + 2)) ∧ 0 ≤ h'.cells x

theorem OnlyLinks.trans {h₁ h₂ h₃ : Heap} (o : OnlyLinks h₁ h₂ blk) (o' : OnlyLinks h₂ h₃ blk) :
    OnlyLinks h₁ h₃ blk := by
  intro x
  rcases o' x with he | hl
  · rw [he]
    exact o x
  · exact .inr hl

/-- Links are not first or last words. -/
theorem OnlyLinks.tags (o : OnlyLinks h h' blk) (L : Layout h blk) (hi : blk i = some b) :
    h'.cells i = h.cells i ∧ h'.cells (i + b.size - 1) = h.cells (i + b.size - 1) := by
  have inner : ∀ {x}, (∃ j c, blk j = some c ∧ c.free = true ∧ (x = j + 1 ∨ x = j + 2)) →
      x ≠ i ∧ x ≠ i + b.size - 1 := by
    rintro x ⟨j, c, hc, hfree, hx⟩
    have hbig := (L.free_inside hc hfree).2.2
    exact L.interior hc (by omega) (by omega) hi
  constructor
  · rcases o i with he | ⟨hl, -⟩
    · exact he
    · exact absurd rfl (inner hl).1
  · rcases o (i + b.size - 1) with he | ⟨hl, -⟩
    · exact he
    · exact absurd rfl (inner hl).2

/-- Links are not in taken blocks. -/
theorem OnlyLinks.frame (o : OnlyLinks h h' blk) (L : Layout h blk) (hi : blk i = some b)
    (htaken : b.free = false) {x : Int} (hx : i ≤ x ∧ x < i + b.size) :
    h'.cells x = h.cells x := by
  rcases o x with he | ⟨⟨j, c, hc, hfree, hl⟩, -⟩
  · exact he
  · have hbig := (L.free_inside hc hfree).2.2
    have heq := L.tiling.unique hi hc (x := x) hx (by omega)
    subst heq
    rw [hi] at hc
    cases hc
    rw [htaken] at hfree
    cases hfree

theorem OnlyLinks.sign (o : OnlyLinks h h' blk) {x : Int} (hx : 0 ≤ h.cells x) :
    0 ≤ h'.cells x := by
  rcases o x with he | hl
  · rw [he]
    exact hx
  · exact hl.2

/-- A block leaves the list. -/
theorem Chained.remove (C : Chained h blk links out) (hi : i ∈ links) :
    OnlyLinks h (h.remove i) blk ∧ Chained (h.remove i) blk (links.erase i) (i :: out) := by
  have hpn := C.linked.neighbours hi
  have free : ∀ {j}, j ∈ links → ∃ b, blk j = some b ∧ b.free = true :=
    fun hj => ((C.listed _).mp hj).1
  have honly : OnlyLinks h (h.remove i) blk := by
    intro x
    rw [Heap.remove_cells]
    split
    · rename_i hx
      obtain ⟨b, hb, hfree⟩ := free (hpn.2.resolve_left hx.1)
      refine .inr ⟨⟨_, b, hb, hfree, .inr hx.2⟩, ?_⟩
      rcases hpn.1 with h0 | hm
      · exact Int.le_of_eq h0.symm
      · have h2 := C.two_le hm
        omega
    · split
      · rename_i hx
        obtain ⟨b, hb, hfree⟩ := free (hpn.1.resolve_left hx.1)
        refine .inr ⟨⟨_, b, hb, hfree, .inl hx.2⟩, ?_⟩
        rcases hpn.2 with h0 | hm
        · exact Int.le_of_eq h0.symm
        · have h2 := C.two_le hm
          omega
      · exact .inl rfl
  -- blocks have four words, so the forward link of one is never the back link of another
  have apart : ∀ {k j}, k ∈ links → (j = 0 ∨ j ∈ links) → k + 1 = j + 2 → j ≠ 0 → False := by
    intro k j hk hj heq hj0
    have hjm := hj.resolve_left hj0
    have hsp := C.spaced hk hjm (by omega)
    omega
  have hl : Linked (h.remove i).next (h.remove i).prev 0 (h.remove i).avail (links.erase i) := by
    refine C.linked.remove hi Heap.remove_avail (fun k hk hne => ?_) fun k hk hne => ?_
    · have h2 := C.two_le hk
      show (h.remove i).cells (k + 1) = _
      rw [Heap.remove_cells, if_neg fun hx => apart hk hpn.2 hx.2 hx.1]
      by_cases hkp : k = h.prev i
      · rw [if_pos hkp, if_pos ⟨by omega, by omega⟩]
      · rw [if_neg hkp, if_neg fun hx => hkp (by omega)]
        rfl
    · have h2 := C.two_le hk
      show (h.remove i).cells (k + 2) = _
      by_cases hkn : k = h.next i
      · rw [if_pos hkn, Heap.remove_cells, if_pos ⟨by omega, by omega⟩]
      · rw [if_neg hkn, Heap.remove_cells, if_neg fun hx => hkn (by omega), if_neg]
        · rfl
        · rintro ⟨hp0, hx⟩
          have hpm := hpn.1.resolve_left hp0
          by_cases hkp : k = h.prev i
          · omega
          · have hsp := C.spaced hk hpm hkp
            omega
  refine ⟨honly, C.toLayout.congr Heap.remove_base Heap.remove_len
    fun hj => honly.tags C.toLayout hj, hl, fun k => ?_⟩
  rw [C.linked.1.mem_erase_iff, C.listed, List.mem_cons, not_or]
  exact ⟨fun hk => ⟨hk.2.1, hk.1, hk.2.2⟩, fun hk => ⟨hk.2.1, hk.1, hk.2.2⟩⟩

/-- A block goes to the head of the list. -/
theorem linked_makeAvail (hl : Linked h.next h.prev 0 h.avail links) (hn : 4 ≤ n) (hi : 2 ≤ i)
    (hout : ∀ j ∈ links, j + 4 ≤ i ∨ i + n ≤ j)
    (hsp : ∀ j ∈ links, ∀ k ∈ links, j ≠ k → j + 4 ≤ k ∨ k + 4 ≤ j) :
    Linked (h.makeAvail i n).next (h.makeAvail i n).prev 0 (h.makeAvail i n).avail (i :: links) := by
  have hav : h.avail ≠ 0 → h.avail + 4 ≤ i ∨ i + n ≤ h.avail := fun h0 => hout _ (hl.head_mem h0)
  show Linked (h.makeAvail i n).next (h.makeAvail i n).prev 0 i (i :: links)
  refine hl.push (fun hm => ?_) (by omega) ?_ ?_ fun k hk => ⟨?_, ?_⟩
  · have hm' := hout i hm
    omega
  · show (h.makeAvail i n).cells (i + 1) = _
    rw [Heap.makeAvail_cells (by omega), if_neg, if_neg (by omega), if_pos rfl]
    rintro ⟨h0, hx⟩
    have ha := hav h0
    omega
  · show (h.makeAvail i n).cells (i + 2) = _
    rw [Heap.makeAvail_cells (by omega), if_neg, if_pos rfl]
    rintro ⟨h0, hx⟩
    have ha := hav h0
    omega
  · have ho := hout k hk
    show (h.makeAvail i n).cells (k + 1) = _
    rw [Heap.makeAvail_cells (by omega), if_neg, if_neg (by omega), if_neg (by omega),
      if_neg (by omega), if_neg (by omega)]
    · rfl
    · rintro ⟨h0, hx⟩
      have hs := hsp k hk _ (hl.head_mem h0)
      omega
  · have ho := hout k hk
    show (h.makeAvail i n).cells (k + 2) = _
    by_cases hka : k = h.avail
    · have h0 : h.avail ≠ 0 := fun h0 => hl.2.1 (by rw [← h0, ← hka]; exact hk)
      rw [if_pos hka, Heap.makeAvail_cells (by omega), if_pos ⟨h0, by omega⟩]
    · rw [if_neg hka, Heap.makeAvail_cells (by omega), if_neg fun hx => hka (by omega),
        if_neg (by omega), if_neg (by omega), if_neg (by omega), if_neg (by omega)]
      rfl

/-! ## Blocks replaced -/

/-- Consecutive blocks are replaced by others; the first and last words are written to fit. -/
theorem Layout.splice (L : Layout h blk) (hbase : h'.base = h.base) (hlen : h'.len = h.len)
    (N : Tiling Block.size lo hi new) (hcut : Tiling.Cut Block.size blk lo hi) (hlo : 2 ≤ lo)
    (hhi : hi ≤ h.len - 2)
    (hold : ∀ i b, blk i = some b → i + b.size ≤ lo ∨ hi ≤ i → h'.cells i = h.cells i ∧
      h'.cells (i + b.size - 1) = h.cells (i + b.size - 1))
    (hnew : ∀ i b, new i = some b → h'.cells i = b.tag ∧ h'.cells (i + b.size - 1) = b.tag ∧
      4 ≤ b.size)
    (hin : ∀ i b c, new i = some b → b.free = true → new (i + b.size) = some c → c.free = false)
    (hleft : ∀ j b c, blk j = some b → j + b.size = lo → b.free = true → new lo = some c →
      c.free = false)
    (hright : ∀ i b c, new i = some b → i + b.size = hi → b.free = true → blk hi = some c →
      c.free = false) : Layout h' (splice lo hi new blk) := by
  have heq : ∀ {i b}, Lib.splice lo hi new blk i = some b ↔
      new i = some b ∨ (blk i = some b ∧ (i + b.size ≤ lo ∨ hi ≤ i)) :=
    Tiling.splice_eq L.tiling N hcut
  have hroom := L.room
  refine ⟨?_, fun hi' => ?_, ?_, ?_, fun hi' h0 hl => ?_, fun {i b c} hi' hfree hc => ?_, ?_, ?_⟩
  · rw [hlen]
    exact Tiling.splice L.tiling N hcut (by omega) (by omega)
  · rcases heq.mp hi' with hn | ⟨ho, hout⟩
    · exact ⟨(hnew _ _ hn).1, (hnew _ _ hn).2.1⟩
    · have hc := hold _ _ ho hout
      exact ⟨hc.1.trans (L.tagged ho).1, hc.2.trans (L.tagged ho).2⟩
  · exact heq.mpr (.inr ⟨L.first, .inl hlo⟩)
  · rw [hlen]
    exact heq.mpr (.inr ⟨L.last, .inr hhi⟩)
  · rcases heq.mp hi' with hn | ⟨ho, -⟩
    · exact (hnew _ _ hn).2.2
    · exact L.big ho h0 (hlen ▸ hl)
  · rcases heq.mp hi' with hn | ⟨ho, hout⟩
    · rcases heq.mp hc with hn' | ⟨ho', hout'⟩
      · exact hin i b c hn hfree hn'
      · have hn1 := N.inside hn
        have ho1 := L.tiling.inside ho'
        have hend : i + b.size = hi := by omega
        exact hright i b c hn hend hfree (hend ▸ ho')
    · rcases heq.mp hc with hn' | ⟨ho', -⟩
      · have hn1 := N.inside hn'
        have ho1 := L.tiling.inside ho
        have hend : i + b.size = lo := by omega
        exact hleft i b c ho hend hfree (hend ▸ hn')
      · exact L.apart ho hfree ho'
  · rw [hbase, hlen]
    exact L.fits
  · rw [hlen]
    exact L.room

/-- A listed block lies outside of a range that has no listed block. -/
theorem Chained.outside (C : Chained h blk links out) (hcut : Tiling.Cut Block.size blk lo hi)
    (hnone : ∀ j b, blk j = some b → b.free = true → lo ≤ j → j < hi → j ∈ out) {j : Int}
    (hj : j ∈ links) : j + 4 ≤ lo ∨ hi ≤ j := by
  obtain ⟨⟨b, hb, hfree⟩, hout⟩ := (C.listed j).mp hj
  have hbig := (C.free_inside hb hfree).2.2
  rcases hcut hb with h | h | h
  · exact .inl (by omega)
  · exact absurd (hnone j b hb hfree h.1 (by omega)) hout
  · exact .inr h

/-- A listed block lies outside of one that is not listed. -/
theorem Chained.outside_one (C : Chained h blk links out) (hi : blk i = some b) (hout : i ∈ out)
    {j : Int} (hj : j ∈ links) : j + 4 ≤ i ∨ i + b.size ≤ j := by
  refine C.outside (C.tiling.cut_of_ends hi hi) (fun k c hc _ hlo hhi => ?_) hj
  have hpos := (C.tiling.inside hc).2.2
  have heq := C.tiling.unique hc hi (x := k) ⟨Int.le_refl _, by omega⟩ ⟨hlo, hhi⟩
  rw [heq]
  exact hout

/-! ## A range put at the head of the list

`g` has the list of `h`, and its other words may differ: `malloc` has written the block it takes by
then. -/

namespace Chained

variable {g : Heap} {x : Int}

/-- The head of the list is a free block. -/
theorem head (C : Chained h blk links out) (h0 : h.avail ≠ 0) :
    ∃ c, blk h.avail = some c ∧ c.free = true ∧ 4 ≤ c.size := by
  obtain ⟨⟨c, hc, hf⟩, -⟩ := (C.listed _).mp (C.linked.head_mem h0)
  exact ⟨c, hc, hf, (C.free_inside hc hf).2.2⟩

/-- Outside of the range only the back link of the old head changes. -/
theorem makeAvail_outside (hg : g.avail = h.avail) (hn : 4 ≤ n) (hx : x < i ∨ i + n ≤ x)
    (hne : h.avail ≠ 0 → x ≠ h.avail + 2) : (g.makeAvail i n).cells x = g.cells x := by
  rw [Heap.makeAvail_cells (by omega), hg, if_neg fun hx' => hne hx'.1 hx'.2, if_neg (by omega),
    if_neg (by omega), if_neg (by omega), if_neg (by omega)]

/-- That link is the first or last word of no block. -/
theorem makeAvail_tags (C : Chained h blk links out) (hg : g.avail = h.avail) (hn : 4 ≤ n) {j : Int}
    (hj : blk j = some c) (hout : j + c.size ≤ i ∨ i + n ≤ j) :
    (g.makeAvail i n).cells j = g.cells j ∧
      (g.makeAvail i n).cells (j + c.size - 1) = g.cells (j + c.size - 1) := by
  have hpos := (C.tiling.inside hj).2.2
  have inner : ∀ {x}, x = j ∨ x = j + c.size - 1 → h.avail ≠ 0 → x ≠ h.avail + 2 := by
    intro x hx h0 hx'
    obtain ⟨d, hd, -, hbig⟩ := C.head h0
    have hint := C.interior hd (x := x) (by omega) (by omega) hj
    exact hx.elim hint.1 hint.2
  exact ⟨makeAvail_outside hg hn (by omega) (inner (.inl rfl)),
    makeAvail_outside hg hn (by omega) (inner (.inr rfl))⟩

/-- It is not in a taken block either. -/
theorem makeAvail_frame (C : Chained h blk links out) (hg : g.avail = h.avail) (hn : 4 ≤ n) {j : Int}
    (hj : blk j = some c) (htaken : c.free = false) (hout : j + c.size ≤ i ∨ i + n ≤ j)
    (hx : j ≤ x) (hx' : x < j + c.size) : (g.makeAvail i n).cells x = g.cells x := by
  refine makeAvail_outside hg hn (by omega) fun h0 hxa => ?_
  obtain ⟨d, hd, hf, hbig⟩ := C.head h0
  have hap := C.tiling.apart hj hd (taken_ne_free hj hd htaken hf)
  omega

/-- The range begins and ends with its length. -/
theorem makeAvail_ends (C : Chained h blk links out) (hg : g.avail = h.avail) (hn : 4 ≤ n)
    (hlinks : ∀ {j}, j ∈ links → j + 4 ≤ i ∨ i + n ≤ j) :
    (g.makeAvail i n).cells i = n ∧ (g.makeAvail i n).cells (i + n - 1) = n := by
  have hhead : h.avail ≠ 0 → h.avail + 4 ≤ i ∨ i + n ≤ h.avail := fun h0 =>
    hlinks (C.linked.head_mem h0)
  constructor
  · rw [Heap.makeAvail_cells (by omega), hg, if_neg, if_neg (by omega), if_neg (by omega),
      if_neg (by omega), if_pos rfl]
    rintro ⟨h0, hx⟩
    have ha := hhead h0
    omega
  · rw [Heap.makeAvail_cells (by omega), hg, if_neg, if_neg (by omega), if_neg (by omega),
      if_pos rfl]
    rintro ⟨h0, hx⟩
    have ha := hhead h0
    omega

/-- What is written is not negative. -/
theorem makeAvail_sign (C : Chained h blk links out) (hg : g.avail = h.avail) (hn : 4 ≤ n)
    (hi : 2 ≤ i) (hx : 0 ≤ g.cells x) : 0 ≤ (g.makeAvail i n).cells x := by
  have hhead : 0 ≤ h.avail := by
    by_cases h0 : h.avail = 0
    · exact Int.le_of_eq h0.symm
    · have h2 := C.two_le (C.linked.head_mem h0)
      omega
  rw [Heap.makeAvail_cells (by omega), hg]
  split
  · omega
  · split
    · exact Int.le_refl _
    · split
      · exact hhead
      · split
        · omega
        · split
          · omega
          · exact hx

end Chained

/-! ## `malloc`

What comes out of the two ways in which `malloc` serves a request, the whole of a block or a part
of it, is the same for a caller: a block of so many words is in use, and the other blocks in use
are the ones there were (`Took`). -/

/-- The block `it` of `k` words was cut out of a free one. -/
structure Took (h : Heap) (blk : Blocks) (it k : Int) (h' : Heap) (blk' : Blocks) : Prop where
  base : h'.base = h.base
  len : h'.len = h.len
  inFree : ∃ b, blk it = some b ∧ b.free = true ∧ k ≤ b.size
  big : 4 ≤ k
  taken : ∀ j b, b.free = false → (blk' j = some b ↔ blk j = some b ∨ (j = it ∧ b = ⟨k, false⟩))
  frame : ∀ j b, blk j = some b → b.free = false → ∀ x, j ≤ x → x < j + b.size →
    h'.cells x = h.cells x
  sign : ∀ x, 0 ≤ h.cells x → ¬(it ≤ x ∧ x < it + k) → 0 ≤ h'.cells x

/-- The block `i` becomes one in use. -/
def Blocks.takeAll (blk : Blocks) (i : Int) (b : Block) : Blocks :=
  Lib.splice i (i + b.size) (onePiece i ⟨b.size, false⟩) blk

/-- The first `k` words of the block `i` become one in use. -/
def Blocks.takePart (blk : Blocks) (i : Int) (b : Block) (k : Int) : Blocks :=
  Lib.splice i (i + b.size) (twoPieces i (i + k) ⟨k, false⟩ ⟨b.size - k, true⟩) blk

/-- The whole block is taken. -/
theorem Chained.takeAll (C : Chained h blk links [i]) {h₀ : Heap} (o : OnlyLinks h₀ h blk)
    (L₀ : Layout h₀ blk) (hbase : h.base = h₀.base) (hlen : h.len = h₀.len)
    (hi : blk i = some b) (hfree : b.free = true) :
    Inv (h.makeTaken i b.size) (blk.takeAll i b) links ∧
      Took h₀ blk i b.size (h.makeTaken i b.size) (blk.takeAll i b) := by
  obtain ⟨h2, hend, hbig⟩ := C.free_inside hi hfree
  have hcut : Tiling.Cut Block.size blk i (i + b.size) := C.tiling.cut_of_ends hi hi
  have N : Tiling Block.size i (i + b.size) (onePiece i (⟨b.size, false⟩ : Block)) :=
    Tiling.one rfl (by show 0 < b.size; omega)
  have heq : ∀ {j c}, blk.takeAll i b j = some c ↔
      onePiece i (⟨b.size, false⟩ : Block) j = some c ∨
        (blk j = some c ∧ (j + c.size ≤ i ∨ i + b.size ≤ j)) := Tiling.splice_eq C.tiling N hcut
  have hcells := Heap.makeTaken_cells (h := h) (i := i) (n := b.size) (by omega)
  have hsame : ∀ {x}, x < i ∨ i + b.size ≤ x → (h.makeTaken i b.size).cells x = h.cells x := by
    intro x hx
    rw [hcells, if_neg (by omega), if_neg (by omega)]
  have hlinks : ∀ {j}, j ∈ links → j + 4 ≤ i ∨ i + b.size ≤ j :=
    C.outside_one hi (List.mem_singleton.mpr rfl)
  refine ⟨⟨C.toLayout.splice rfl rfl N hcut h2 hend (fun j c hc hout => ?_)
    (fun j c hc => ?_) (fun j c c' hc hf => ?_) (fun j c c' _ _ _ hc => ?_)
    fun j c c' hc _ hf => ?_, ?_, fun j => ?_⟩, hbase, hlen, ⟨b, hi, hfree, Int.le_refl _⟩, hbig,
    fun j c hc => ?_, fun j c hc hct x hx hx' => ?_, fun x hx hxr => ?_⟩
  · have hpos := (C.tiling.inside hc).2.2
    exact ⟨hsame (by omega), hsame (by omega)⟩
  -- the tags of the block, now negative
  · obtain ⟨rfl, rfl⟩ := onePiece_eq.mp hc
    refine ⟨?_, ?_, hbig⟩
    · rw [hcells]
      split
      · rfl
      · rw [if_pos rfl]
        rfl
    · rw [hcells, if_pos rfl]
      rfl
  · obtain ⟨-, rfl⟩ := onePiece_eq.mp hc
    cases hf
  · obtain ⟨-, rfl⟩ := onePiece_eq.mp hc
    rfl
  · obtain ⟨-, rfl⟩ := onePiece_eq.mp hc
    cases hf
  · refine C.linked.congr fun j hj => ?_
    have ho := hlinks hj
    exact ⟨hsame (by omega), hsame (by omega)⟩
  · rw [C.listed]
    constructor
    · rintro ⟨⟨c, hc, hf⟩, hne⟩
      refine ⟨c, heq.mpr (.inr ⟨hc, ?_⟩), hf⟩
      exact C.tiling.apart hc hi fun h => hne (h ▸ List.mem_singleton.mpr rfl)
    · rintro ⟨c, hc, hf⟩
      rcases heq.mp hc with hn | ⟨ho, hout⟩
      · obtain ⟨-, rfl⟩ := onePiece_eq.mp hn
        cases hf
      · refine ⟨⟨c, ho, hf⟩, fun hm => ?_⟩
        obtain rfl := List.mem_singleton.mp hm
        have hpos := (C.tiling.inside ho).2.2
        omega
  · rw [heq, onePiece_eq]
    constructor
    · rintro (hn | ho)
      · exact .inr hn
      · exact .inl ho.1
    · rintro (ho | hn)
      · exact .inr ⟨ho, C.tiling.apart ho hi (taken_ne_free ho hi hc hfree)⟩
      · exact .inl hn
  · rw [← o.frame L₀ hc hct ⟨hx, hx'⟩]
    have hap := C.tiling.apart hc hi (taken_ne_free hc hi hct hfree)
    exact hsame (by omega)
  · rw [hsame (by omega)]
    exact o.sign hx

/-- The block is cut in two; the rest goes to the list. -/
theorem Chained.takePart (C : Chained h blk links [i]) {h₀ : Heap} (o : OnlyLinks h₀ h blk)
    (L₀ : Layout h₀ blk) (hbase : h.base = h₀.base) (hlen : h.len = h₀.len)
    (hi : blk i = some b) (hfree : b.free = true) {k : Int} (hk : 4 ≤ k) (hkb : 4 ≤ b.size - k) :
    Inv ((h.makeTaken i k).makeAvail (i + k) (b.size - k)) (blk.takePart i b k)
        ((i + k) :: links) ∧
      Took h₀ blk i k ((h.makeTaken i k).makeAvail (i + k) (b.size - k)) (blk.takePart i b k) := by
  obtain ⟨h2, hend, hbig⟩ := C.free_inside hi hfree
  have hcut : Tiling.Cut Block.size blk i (i + b.size) := C.tiling.cut_of_ends hi hi
  -- in place of `b`: the piece that is handed out, and the rest
  have N : Tiling Block.size i (i + b.size)
      (twoPieces i (i + k) (⟨k, false⟩ : Block) ⟨b.size - k, true⟩) :=
    Tiling.two rfl (by show i + k + (b.size - k) = _; omega) (by show 0 < k; omega)
      (by show 0 < b.size - k; omega)
  have hnew : ∀ {j c}, twoPieces i (i + k) (⟨k, false⟩ : Block) ⟨b.size - k, true⟩ j = some c ↔
      (j = i ∧ c = ⟨k, false⟩) ∨ (j = i + k ∧ c = ⟨b.size - k, true⟩) :=
    twoPieces_eq (by omega)
  have heq : ∀ {j c}, blk.takePart i b k j = some c ↔
      twoPieces i (i + k) (⟨k, false⟩ : Block) ⟨b.size - k, true⟩ j = some c ∨
        (blk j = some c ∧ (j + c.size ≤ i ∨ i + b.size ≤ j)) := Tiling.splice_eq C.tiling N hcut
  have hlinks : ∀ {j}, j ∈ links → j + 4 ≤ i ∨ i + b.size ≤ j :=
    C.outside_one hi (List.mem_singleton.mpr rfl)
  have hg : (h.makeTaken i k).avail = h.avail := rfl
  have hkept : ∀ {x}, x < i ∨ i + k ≤ x → (h.makeTaken i k).cells x = h.cells x := by
    intro x hx
    rw [Heap.makeTaken_cells (by omega), if_neg (by omega), if_neg (by omega)]
  -- the rest goes to the head of the list, where its tags and links are written
  have hpush := linked_makeAvail (h := h.makeTaken i k) (i := i + k) (n := b.size - k)
    (C.linked.congr fun j hj => ?_) hkb (by omega) (fun j hj => ?_)
    fun j hj j' hj' => C.spaced hj hj'
  rotate_left
  · have ho := hlinks hj
    exact ⟨hkept (by omega), hkept (by omega)⟩
  · have ho := hlinks hj
    omega
  refine ⟨⟨C.toLayout.splice (Heap.makeAvail_base) (Heap.makeAvail_len) N hcut
    h2 hend (fun j c hc hout => ?_) (fun j c hc => ?_) (fun j c c' hc hf hc' => ?_)
    (fun j c c' _ _ _ hc => ?_) fun j c c' hc hj _ hc' => ?_, hpush, fun j => ?_⟩,
    Heap.makeAvail_base.trans hbase, Heap.makeAvail_len.trans hlen,
    ⟨b, hi, hfree, by omega⟩, hk, fun j c hct => ?_, fun j c hc hct x hx hx' => ?_,
    fun x hx hxr => ?_⟩
  · have hpos := (C.tiling.inside hc).2.2
    have htags := C.makeAvail_tags hg hkb hc (i := i + k) (by omega)
    exact ⟨htags.1.trans (hkept (by omega)), htags.2.trans (hkept (by omega))⟩
  · rcases hnew.mp hc with ⟨rfl, rfl⟩ | ⟨rfl, rfl⟩
    · -- the words of the first piece were written before
      have hbefore : ∀ {x}, j ≤ x → x < j + k → h.avail ≠ 0 → x ≠ h.avail + 2 := by
        intro x hx hx' h0
        have ha := hlinks (C.linked.head_mem h0)
        omega
      refine ⟨?_, ?_, hk⟩
      · rw [makeAvail_outside hg hkb (by omega) (hbefore (by omega) (by omega)),
          Heap.makeTaken_cells (by omega), if_neg (by omega), if_pos rfl]
        rfl
      · show ((h.makeTaken j k).makeAvail (j + k) (b.size - k)).cells (j + k - 1) = -k
        rw [makeAvail_outside hg hkb (by omega) (hbefore (by omega) (by omega)),
          Heap.makeTaken_cells (by omega), if_pos rfl]
    · have hends := C.makeAvail_ends hg hkb (i := i + k) fun hj => by
        have ho := hlinks hj
        omega
      exact ⟨hends.1, hends.2, hkb⟩
  · rcases hnew.mp hc with ⟨rfl, rfl⟩ | ⟨rfl, rfl⟩
    · cases hf
    · rcases hnew.mp hc' with ⟨hj, -⟩ | ⟨hj, -⟩
      · have hj' : i + k + (b.size - k) = i := hj
        omega
      · have hj' : i + k + (b.size - k) = i + k := hj
        omega
  · rcases hnew.mp hc with ⟨-, rfl⟩ | ⟨hj, -⟩
    · rfl
    · omega
  · exact C.apart hi hfree hc'
  -- the list has the free blocks, the new one included
  · rw [List.mem_cons, C.listed]
    constructor
    · rintro (rfl | ⟨⟨c, hc, hf⟩, hne⟩)
      · exact ⟨_, heq.mpr (.inl (hnew.mpr (.inr ⟨rfl, rfl⟩))), rfl⟩
      · refine ⟨c, heq.mpr (.inr ⟨hc, ?_⟩), hf⟩
        exact C.tiling.apart hc hi fun h => hne (h ▸ List.mem_singleton.mpr rfl)
    · rintro ⟨c, hc, hf⟩
      rcases heq.mp hc with hn | ⟨ho, hout⟩
      · rcases hnew.mp hn with ⟨-, rfl⟩ | ⟨hj, -⟩
        · cases hf
        · exact .inl hj
      · refine .inr ⟨⟨c, ho, hf⟩, fun hm => ?_⟩
        obtain rfl := List.mem_singleton.mp hm
        have hpos := (C.tiling.inside ho).2.2
        omega
  -- the taken blocks are those there were, and the piece
  · rw [heq, hnew]
    constructor
    · rintro ((hn | ⟨-, rfl⟩) | ho)
      · exact .inr hn
      · cases hct
      · exact .inl ho.1
    · rintro (ho | hn)
      · exact .inr ⟨ho, C.tiling.apart ho hi (taken_ne_free ho hi hct hfree)⟩
      · exact .inl (.inl hn)
  · rw [← o.frame L₀ hc hct ⟨hx, hx'⟩]
    have hap := C.tiling.apart hc hi (taken_ne_free hc hi hct hfree)
    rw [C.makeAvail_frame hg hkb hc hct (by omega) hx hx', hkept (by omega)]
  · refine C.makeAvail_sign hg hkb (by omega) ?_
    rw [hkept (by omega)]
    exact o.sign hx

end OsKernel.KernelHeap
