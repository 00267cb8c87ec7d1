import OsKernel.Heap.Malloc

/-!
# `free`

The block and its free neighbours make up one range. The free ones leave the list, and the
range comes back as one free block, whichever of the four cases it is.

`Merged` says which range that is: it is tiled by the block and the blocks of `out`, and no
free block touches it. The second part is what keeps the invariant that free blocks never
touch. It needs that they did not before, since then the neighbours of a free neighbour are
taken.

The source adds the size of the left block after it has moved the index there, and reads both
sizes out of first words that `remove` does not write. The left neighbour is found through its
last word (`Layout.left_eq`), which is why blocks carry their size twice.
-/

set_option autoImplicit false

namespace OsKernel.KernelHeap

open Lib Prog

variable {h h' : Heap} {blk : Blocks} {links out : List Int} {i l lo hi : Int} {b c d : Block}

/-- `[lo, hi)` is the taken block `i` and the free blocks of `out`, and no free block touches it. -/
structure Merged (blk : Blocks) (i : Int) (out : List Int) (lo hi : Int) : Prop where
  cut : Tiling.Cut Block.size blk lo hi
  mem : lo ≤ i ∧ i < hi
  out_iff : ∀ j, j ∈ out ↔ ∃ b, blk j = some b ∧ b.free = true ∧ lo ≤ j ∧ j < hi
  only : ∀ j b, blk j = some b → b.free = false → lo ≤ j → j < hi → j = i
  left : ∀ j b, blk j = some b → j + b.size = lo → b.free = false
  right : ∀ b, blk hi = some b → b.free = false

/-- A block of a range that starts and ends with known blocks is one of them, if only the block `i`
can be between them. -/
theorem Layout.between (L : Layout h blk) (hi : blk i = some b) {j : Int} (hj : blk j = some c) :
    (j < i + b.size → i ≤ j → j = i) ∧ (j + c.size ≤ i ∨ j = i ∨ i + b.size ≤ j) := by
  have hpos := (L.tiling.inside hj).2.2
  constructor
  · intro hlt hle
    exact L.tiling.unique hj hi (x := j) ⟨Int.le_refl _, by omega⟩ ⟨hle, hlt⟩
  · by_cases hne : j = i
    · exact .inr (.inl hne)
    · rcases L.tiling.apart hj hi hne with h' | h'
      · exact .inl h'
      · exact .inr (.inr h')

/-- The range of a taken block between two neighbours. -/
theorem Layout.merged (L : Layout h blk) (hl : blk l = some c) (hlc : l + c.size = i)
    (hi : blk i = some b) (htaken : b.free = false) (hr : blk (i + b.size) = some d) :
    Merged blk i ((if d.free then [i + b.size] else []) ++ (if c.free then [l] else []))
      (if c.free then l else i) (if d.free then i + b.size + d.size else i + b.size) := by
  have hcpos := (L.tiling.inside hl).2.2
  have hbpos := (L.tiling.inside hi).2.2
  have hdpos := (L.tiling.inside hr).2.2
  have hil : ∀ {j e}, blk j = some e → l ≤ j → j < i → j = l := fun hj hle hlt =>
    (L.between hl hj).1 (by omega) hle
  have hii : ∀ {j e}, blk j = some e → i ≤ j → j < i + b.size → j = i := fun hj hle hlt =>
    (L.between hi hj).1 hlt hle
  have hir : ∀ {j e}, blk j = some e → i + b.size ≤ j → j < i + b.size + d.size →
      j = i + b.size := fun hj hle hlt => (L.between hr hj).1 hlt hle
  have hfree : ∀ {j e}, blk j = some e → e.free = true → j ≠ i := fun hj he heq =>
    taken_ne_free hi hj htaken he heq.symm
  constructor
  · cases hcf : c.free
    · cases hdf : d.free
      · exact L.tiling.cut_of_ends hi hi
      · exact L.tiling.cut_of_ends hi hr
    · cases hdf : d.free
      · exact L.tiling.cut_of_ends hl hi
      · exact L.tiling.cut_of_ends hl hr
  · split <;> split <;> omega
  · intro j
    rw [List.mem_append]
    constructor
    · rintro (hj | hj)
      · cases hdf : d.free
        · rw [hdf] at hj
          cases hj
        · rw [hdf] at hj
          obtain rfl := List.mem_singleton.mp hj
          refine ⟨d, hr, hdf, ?_, ?_⟩
          · split <;> omega
          · simp only [if_true]
            omega
      · cases hcf : c.free
        · rw [hcf] at hj
          cases hj
        · rw [hcf] at hj
          obtain rfl := List.mem_singleton.mp hj
          refine ⟨c, hl, hcf, ?_, ?_⟩
          · simp only [if_true]
            exact Int.le_refl _
          · split <;> omega
    -- a free block in the merged range is a neighbour, since the block itself is taken
    · rintro ⟨e, he, hef, hle, hlt⟩
      by_cases hji : j < i
      · have hcf : c.free = true := by
          by_contra hcf
          rw [if_neg hcf] at hle
          omega
        rw [if_pos hcf] at hle
        refine .inr ?_
        rw [if_pos hcf, hil he hle hji]
        exact List.mem_singleton.mpr rfl
      · have hge : i + b.size ≤ j := by
          by_contra hlt'
          exact hfree he hef (hii he (by omega) (by omega))
        have hdf : d.free = true := by
          by_contra hdf
          rw [if_neg hdf] at hlt
          omega
        rw [if_pos hdf] at hlt
        refine .inl ?_
        rw [if_pos hdf, hir he hge hlt]
        exact List.mem_singleton.mpr rfl
  · intro j e he hef hle hlt
    by_contra hne
    rcases (L.between hi he).2 with h' | h' | h'
    · have hepos := (L.tiling.inside he).2.2
      by_cases hcf : c.free = true
      · rw [if_pos hcf] at hle
        exact taken_ne_free he hl hef hcf (hil he hle (by omega))
      · rw [if_neg hcf] at hle
        omega
    · exact hne h'
    · by_cases hdf : d.free = true
      · rw [if_pos hdf] at hlt
        exact taken_ne_free he hr hef hdf (hir he h' hlt)
      · rw [if_neg hdf] at hlt
        omega
  -- what ends where the range begins is taken: two free blocks never touch
  · intro j e he hend
    by_contra hef
    have hef' : e.free = true := by simpa using hef
    have hepos := (L.tiling.inside he).2.2
    by_cases hcf : c.free = true
    · rw [if_pos hcf] at hend
      have hc := L.apart he hef' (hend.symm ▸ hl)
      rw [hcf] at hc
      cases hc
    · rw [if_neg hcf] at hend
      have heq := (L.between hl he).2
      rcases heq with h' | rfl | h'
      · omega
      · rw [hl] at he
        cases he
        exact hcf hef'
      · omega
  · intro e he
    by_cases hdf : d.free = true
    · rw [if_pos hdf] at he
      exact L.apart hr hdf he
    · rw [if_neg hdf, hr] at he
      cases he
      simpa using hdf

/-- The block `i` was given back. -/
structure Gave (h : Heap) (blk : Blocks) (i : Int) (h' : Heap) (blk' : Blocks) : Prop where
  base : h'.base = h.base
  len : h'.len = h.len
  taken : ∀ j b, b.free = false → (blk' j = some b ↔ blk j = some b ∧ j ≠ i)
  frame : ∀ j b, blk j = some b → b.free = false → j ≠ i → ∀ x, j ≤ x → x < j + b.size →
    h'.cells x = h.cells x
  sign : ∀ x, 0 ≤ h.cells x → 0 ≤ h'.cells x
  header : h.isTaken (h.left i) = true → 0 < h'.cells i

/-- The range comes back as one block. -/
theorem Chained.giveBack (C : Chained h blk links out) {h₀ : Heap} (o : OnlyLinks h₀ h blk)
    (L₀ : Layout h₀ blk) (hbase : h.base = h₀.base) (hlen : h.len = h₀.len)
    (m : Merged blk i out lo hi) (hlo : 2 ≤ lo)
    (hhi : hi ≤ h.len - 2) (hbig : 4 ≤ hi - lo)
    (hheader : h₀.isTaken (h₀.left i) = true → lo = i) :
    ∃ blk' links', Inv (h.makeAvail lo (hi - lo)) blk' links' ∧
      Gave h₀ blk i (h.makeAvail lo (hi - lo)) blk' := by
  have N : Tiling Block.size lo hi (onePiece lo (⟨hi - lo, true⟩ : Block)) :=
    Tiling.one (by show lo + (hi - lo) = hi; omega) (by show 0 < hi - lo; omega)
  have heq : ∀ {j e}, Lib.splice lo hi (onePiece lo (⟨hi - lo, true⟩ : Block)) blk j = some e ↔
      onePiece lo (⟨hi - lo, true⟩ : Block) j = some e ∨
        (blk j = some e ∧ (j + e.size ≤ lo ∨ hi ≤ j)) := Tiling.splice_eq C.tiling N m.cut
  have hlinks : ∀ {j}, j ∈ links → j + 4 ≤ lo ∨ hi ≤ j :=
    C.outside m.cut fun j e he hef hle hlt => (m.out_iff j).mpr ⟨e, he, hef, hle, hlt⟩
  have hlinks' : ∀ {j}, j ∈ links → j + 4 ≤ lo ∨ lo + (hi - lo) ≤ j := fun hj => by
    have ho := hlinks hj
    omega
  have hpush := linked_makeAvail (i := lo) (n := hi - lo) C.linked hbig hlo (fun j hj => hlinks' hj)
    fun j hj k hk => C.spaced hj hk
  -- a taken block other than `i` is outside of the range
  have hother : ∀ {j e}, blk j = some e → e.free = false → j ≠ i → j + e.size ≤ lo ∨ hi ≤ j := by
    intro j e he hef hne
    have hpos := (C.tiling.inside he).2.2
    rcases m.cut he with h' | h' | h'
    · exact .inl h'
    · exact absurd (m.only j e he hef h'.1 (by omega)) hne
    · exact .inr h'
  refine ⟨_, lo :: links, ⟨C.toLayout.splice Heap.makeAvail_base Heap.makeAvail_len N m.cut hlo hhi
    (fun j e he hout => ?_) (fun j e he => ?_) (fun j e e' he hf he' => ?_)
    (fun j e e' he hj hf _ => ?_) fun j e e' he hj _ he' => ?_, hpush, fun j => ?_⟩,
    Heap.makeAvail_base.trans hbase, Heap.makeAvail_len.trans hlen, fun j e hef => ?_,
    fun j e he hef hne x hx hx' => ?_, fun x hx => ?_, fun hleft => ?_⟩
  · exact C.makeAvail_tags rfl hbig he (by omega)
  · obtain ⟨rfl, rfl⟩ := onePiece_eq.mp he
    have hends := C.makeAvail_ends rfl hbig hlinks'
    exact ⟨hends.1, hends.2, hbig⟩
  · obtain ⟨rfl, rfl⟩ := onePiece_eq.mp he
    obtain ⟨hj, -⟩ := onePiece_eq.mp he'
    have hj' : j + (hi - j) = j := hj
    omega
  · have hef := m.left j e he hj
    rw [hf] at hef
    cases hef
  · exact m.right e' he'
  · rw [List.mem_cons, C.listed]
    constructor
    · rintro (rfl | ⟨⟨e, he, hf⟩, hne⟩)
      · exact ⟨_, heq.mpr (.inl (onePiece_eq.mpr ⟨rfl, rfl⟩)), rfl⟩
      · refine ⟨e, heq.mpr (.inr ⟨he, ?_⟩), hf⟩
        have hpos := (C.tiling.inside he).2.2
        rcases m.cut he with h' | h' | h'
        · exact .inl h'
        · exact absurd ((m.out_iff j).mpr ⟨e, he, hf, h'.1, by omega⟩) hne
        · exact .inr h'
    · rintro ⟨e, he, hf⟩
      rcases heq.mp he with hn | ⟨ho, hout⟩
      · exact .inl (onePiece_eq.mp hn).1
      · refine .inr ⟨⟨e, ho, hf⟩, fun hm => ?_⟩
        obtain ⟨e', he', -, hle, hlt⟩ := (m.out_iff j).mp hm
        have hpos := (C.tiling.inside ho).2.2
        omega
  · rw [heq, onePiece_eq]
    constructor
    · rintro (⟨-, rfl⟩ | ⟨ho, hout⟩)
      · cases hef
      · refine ⟨ho, ?_⟩
        rintro rfl
        have hpos := (C.tiling.inside ho).2.2
        have hmem := m.mem
        omega
    · rintro ⟨ho, hne⟩
      exact .inr ⟨ho, hother ho hef hne⟩
  · rw [← o.frame L₀ he hef ⟨hx, hx'⟩]
    have hap := hother he hef hne
    exact C.makeAvail_frame rfl hbig he hef (by omega) hx hx'
  · exact C.makeAvail_sign rfl hbig hlo (o.sign hx)
  · obtain rfl := hheader hleft
    rw [(C.makeAvail_ends rfl hbig hlinks').1]
    omega

/-- The header in front of a block is found through its last word. -/
theorem Layout.left_eq (L : Layout h blk) (hl : blk l = some c) (hlc : l + c.size = i) :
    h.left i = l := by
  obtain ⟨-, -, hpos⟩ := L.tiling.inside hl
  have htag := (L.tagged hl).2
  have hx : l + c.size - 1 = i - 1 := by omega
  rw [hx] at htag
  have hsize : h.size (i - 1) = c.size := by
    unfold Heap.size
    rw [htag]
    unfold Block.tag
    cases c.free
    · simp only [Bool.false_eq_true, if_false]
      rw [if_pos (by omega)]
      omega
    · simp only [if_true]
      rw [if_neg (by omega)]
  unfold Heap.left Heap.headerFromFooter
  rw [hsize]
  omega

/-- The neighbours of a block that is not at an end. -/
theorem Layout.beside (L : Layout h blk) (hi : blk i = some b) (h2 : 2 ≤ i)
    (hend : i + b.size ≤ h.len - 2) :
    ∃ l c d, blk l = some c ∧ l + c.size = i ∧ blk (i + b.size) = some d := by
  obtain ⟨l, c, hl, hlc⟩ := L.tiling.before hi (by omega)
  obtain ⟨d, hd⟩ := L.tiling.after hi (by omega)
  exact ⟨l, c, d, hl, hlc, hd⟩

theorem Inv.wp_free (I : Inv h blk links) (hi : blk i = some b) (htaken : b.free = false)
    (h2 : 2 ≤ i) (hend : i + b.size ≤ h.len - 2) :
    wp (free (h.pointer i))
      (fun _ h' => ∃ blk' links', Inv h' blk' links' ∧ Gave h blk i h' blk') (fun _ _ => False)
      h := by
  obtain ⟨l, c, d, hl, hlc, hr⟩ := I.beside hi h2 hend
  have hcpos := (I.tiling.inside hl).2.2
  have hbpos := (I.tiling.inside hi).2.2
  have hdpos := (I.tiling.inside hr).2.2
  have hne := pointer_ne I.fits (i := i) (by omega) (by omega)
  have hbig : 4 ≤ b.size := I.big hi (by omega) (by omega)
  have m := I.merged hl hlc hi htaken hr
  have hlo : 2 ≤ if c.free then l else i := by
    split
    · rename_i hcf
      exact (I.free_inside hl hcf).1
    · exact h2
  have hhi : (if d.free then i + b.size + d.size else i + b.size) ≤ h.len - 2 := by
    split
    · rename_i hdf
      exact (I.free_inside hr hdf).2.1
    · exact hend
  have hleft : h.left i = l := I.left_eq hl hlc
  have hheader : h.isTaken (h.left i) = true → (if c.free then l else i) = i := by
    rw [hleft, I.isTaken_eq hl]
    intro hcf
    rw [if_neg (by simpa using hcf)]
  have hright : h.right i = i + b.size := by
    unfold Heap.right
    rw [I.size_eq hi]
  unfold free
  rw [wp_bind, wp_get, wp_ite, if_neg hne.1, wp_ite, if_neg hne.2,
    index_pointer I.fits (by omega) (by omega)]
  dsimp only
  rw [hleft, hright, wp_ite, I.isTaken_eq hi, htaken, if_neg (by decide), I.size_eq hi,
    I.isAvail_eq hl]
  have hlisted : ∀ {j e}, blk j = some e → e.free = true → j ∈ links := fun hj he =>
    (I.listed _).mpr ⟨_, hj, he⟩
  -- the four cases of the code: which neighbours are free, and so taken off the list first
  cases hcf : c.free
  · rw [hcf] at m hlo
    simp only [Bool.false_eq_true, if_false, List.append_nil, I.isAvail_eq hr] at m hlo ⊢
    cases hdf : d.free
    · rw [hdf] at m hhi
      simp only [Bool.false_eq_true, if_false, wp_set] at m hhi ⊢
      have hg := I.chained.giveBack (fun x => .inl rfl) I.toLayout rfl rfl m hlo hhi (by omega)
        fun _ => rfl
      have hsz : i + b.size - i = b.size := by omega
      rw [hsz] at hg
      exact hg
    · rw [hdf] at m hhi
      simp only [if_true, wp_set] at m hhi ⊢
      obtain ⟨o, C⟩ := I.chained.remove (hlisted hr hdf)
      have hg := C.giveBack o I.toLayout Heap.remove_base Heap.remove_len m hlo
        (by rw [Heap.remove_len]; exact hhi) (by omega) fun _ => rfl
      have hsz : i + b.size + d.size - i = b.size + d.size := by omega
      rw [hsz] at hg
      rw [C.size_eq hr]
      exact hg
  · obtain ⟨o, C⟩ := I.chained.remove (hlisted hl hcf)
    rw [hcf] at m hlo hheader
    simp only [if_true, C.isAvail_eq hr, C.size_eq hl] at m hlo hheader ⊢
    cases hdf : d.free
    · rw [hdf] at m hhi
      simp only [Bool.false_eq_true, if_false, List.nil_append, wp_set] at m hhi ⊢
      have hg := C.giveBack o I.toLayout Heap.remove_base Heap.remove_len m hlo
        (by rw [Heap.remove_len]; exact hhi) (by omega) hheader
      have hsz : i + b.size - l = b.size + c.size := by omega
      rw [hsz] at hg
      exact hg
    · rw [hdf] at m hhi
      simp only [if_true, wp_set] at m hhi ⊢
      -- with the left neighbour off the list, the right one is still on it
      have hr₁ : i + b.size ∈ links.erase l := by
        refine (C.listed _).mpr ⟨⟨d, hr, hdf⟩, fun hm => ?_⟩
        have heq := List.mem_singleton.mp hm
        omega
      obtain ⟨o', C'⟩ := C.remove hr₁
      have hg := C'.giveBack (o.trans o') I.toLayout
        (Heap.remove_base.trans Heap.remove_base) (Heap.remove_len.trans Heap.remove_len) m hlo
        (by rw [Heap.remove_len, Heap.remove_len]; exact hhi) (by omega) hheader
      have hsz : i + b.size + d.size - l = b.size + c.size + d.size := by omega
      rw [hsz] at hg
      rw [C'.size_eq hr]
      exact hg

end OsKernel.KernelHeap
