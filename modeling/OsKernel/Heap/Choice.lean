import OsKernel.Heap.Runs

/-!
# Which block `malloc` takes

The best of the first 20 blocks of the list that are large enough, the first of them among
equals. The rest of the list stays in order, and the other blocks stay as they are.

The source calls itself a first-fit heap, and is not one: it goes on for 19 more candidates
after the first. The statement follows the code. It is about the list as it is in memory, in
its order, so it also says where the remainder goes (to the head) when a block is cut.
-/

set_option autoImplicit false

namespace OsKernel.KernelHeap

open Lib Prog

variable {h h' : Heap} {blk : Blocks} {links : List Int} {i j k : Int} {b c : Block}
variable {s : State} {base bytes : Word}

/-- The words of a block for `n` bytes: the bytes, two words more, and four words at least. -/
def need (n : Word) : Int := max 4 (((n.toNat + 3) / 4 : Nat) + 2)

theorem ints_eq_need {n : Word} (hn : n.toNat ≤ 2 ^ 32 - 4) : ints n = need n := by
  have hsum : (n + 3#32).toNat = n.toNat + 3 := by
    rw [BitVec.toNat_add]
    exact Nat.mod_eq_of_lt (by show n.toNat + 3 < 2 ^ 32; omega)
  have hwords : ((n + 3#32) / 4#32 + 2#32).toNat = (n.toNat + 3) / 4 + 2 := by
    rw [BitVec.toNat_add, BitVec.toNat_udiv, hsum]
    exact Nat.mod_eq_of_lt (by show (n.toNat + 3) / 4 + 2 < 2 ^ 32; omega)
  unfold ints need
  dsimp only
  rw [hwords]
  split <;> omega

theorem takeAll_eq (L : Layout h blk) (hi : blk i = some b) :
    blk.takeAll i b j = some c ↔ (j = i ∧ c = ⟨b.size, false⟩) ∨ (j ≠ i ∧ blk j = some c) := by
  have hpos := (L.tiling.inside hi).2.2
  have N : Tiling Block.size i (i + b.size) (onePiece i (⟨b.size, false⟩ : Block)) :=
    Tiling.one rfl hpos
  unfold Blocks.takeAll
  rw [Tiling.splice_eq L.tiling N (L.tiling.cut_of_ends hi hi), onePiece_eq]
  refine or_congr_right ⟨fun hc => ⟨?_, hc.1⟩, fun hc => ⟨hc.2, L.tiling.apart hc.2 hi hc.1⟩⟩
  rintro rfl
  have hcpos := (L.tiling.inside hc.1).2.2
  omega

theorem takePart_eq (L : Layout h blk) (hi : blk i = some b) (hk : 0 < k) (hkb : k < b.size) :
    blk.takePart i b k j = some c ↔
      (j = i ∧ c = ⟨k, false⟩) ∨ (j = i + k ∧ c = ⟨b.size - k, true⟩) ∨
        (j ≠ i ∧ blk j = some c) := by
  have N : Tiling Block.size i (i + b.size)
      (twoPieces i (i + k) (⟨k, false⟩ : Block) ⟨b.size - k, true⟩) :=
    Tiling.two rfl (by show i + k + (b.size - k) = _; omega) hk
      (by show 0 < b.size - k; omega)
  unfold Blocks.takePart
  rw [Tiling.splice_eq L.tiling N (L.tiling.cut_of_ends hi hi), twoPieces_eq (by omega), or_assoc]
  refine or_congr_right (or_congr_right ⟨fun hc => ⟨?_, hc.1⟩,
    fun hc => ⟨hc.2, L.tiling.apart hc.2 hi hc.1⟩⟩)
  rintro rfl
  have hcpos := (L.tiling.inside hc.1).2.2
  omega

/-- What is left of the block goes to the head of the list if it has four words at least. -/
def Split (blk : Blocks) (links : List Int) (it n : Int) (b : Block) (h' : Heap) : Prop :=
  ∃ blk' links', Inv h' blk' links' ∧
    if 4 ≤ b.size - n then
      links' = (it + n) :: links.erase it ∧ ∀ j c, blk' j = some c ↔
        (j = it ∧ c = ⟨n, false⟩) ∨ (j = it + n ∧ c = ⟨b.size - n, true⟩) ∨
          (j ≠ it ∧ blk j = some c)
    else
      links' = links.erase it ∧ ∀ j c, blk' j = some c ↔
        (j = it ∧ c = ⟨b.size, false⟩) ∨ (j ≠ it ∧ blk j = some c)

theorem Inv.malloc_chooses (I : Inv h blk links) {n p : Word} (hn : n ≠ 0)
    (hmax : n.toNat ≤ 2 ^ 32 - 4) (a : Choice h blk links n p h') :
    (p = 0 ↔ ∀ i b, blk i = some b → b.free = true → b.size < need n) ∧ (p = 0 → h' = h) ∧
      (p ≠ 0 → ∃ it b, (h.candidates (need n) links).argmin h.size = some it ∧
        blk it = some b ∧ b.free = true ∧ p = h.pointer it ∧ Split blk links it (need n) b h' ∧
        ∀ j c, blk j = some c → c.free = false → ∀ x, j ≤ x → x < j + c.size →
          h'.cells x = h.cells x) := by
  have hints := ints_eq_need hmax
  have h4 := four_le_ints n
  -- a block was found, so there is one that is large enough
  have hfound : ∀ {it b}, blk it = some b → b.free = true → p = h.pointer it →
      need n ≤ b.size → p ≠ 0 ∧
        ¬∀ i b, blk i = some b → b.free = true → b.size < need n := by
    intro it b hb hfree hp hle
    have hin := I.free_inside hb hfree
    have hne := pointer_ne I.fits (i := it) (by omega) (by omega)
    refine ⟨hp ▸ hne.1, fun hsmall => ?_⟩
    have hlt := hsmall it b hb hfree
    omega
  cases a with
  | nothing hb _ _ => exact absurd hb hn
  | none _ hp hh hnone =>
    rw [hints] at hnone
    exact ⟨iff_of_true hp (I.candidates_nil.mp hnone), fun _ => hh, fun h0 => absurd hp h0⟩
  | whole it b _ best hblk hfree hp hle hextra I' t =>
    rw [hints] at best hle hextra
    obtain ⟨h0, hbig⟩ := hfound hblk hfree hp hle
    refine ⟨iff_of_false h0 hbig, fun hp0 => absurd hp0 h0, fun _ => ⟨it, b, best, hblk, hfree, hp,
      ⟨_, _, I', ?_⟩, t.frame⟩⟩
    rw [if_neg (by omega)]
    exact ⟨rfl, fun j c => takeAll_eq I.toLayout hblk⟩
  | part it b _ best hblk hfree hp hextra I' t =>
    rw [hints] at best hextra I' t h4
    obtain ⟨h0, hbig⟩ := hfound hblk hfree hp (by omega)
    refine ⟨iff_of_false h0 hbig, fun hp0 => absurd hp0 h0, fun _ => ⟨it, b, best, hblk, hfree, hp,
      ⟨_, _, I', ?_⟩, t.frame⟩⟩
    rw [if_pos hextra]
    exact ⟨rfl, fun j c => takePart_eq I.toLayout hblk (by omega) (by omega)⟩

/-- `malloc` fails exactly if no free block is large enough, and takes the best of the first 20
that are otherwise. -/
theorem malloc_best (hs : Reachable base bytes s) {n : Word} (hn : n ≠ 0)
    (hmax : n.toNat ≤ 2 ^ 32 - 4) :
    ∃ blk links p h', Inv s.heap blk links ∧ malloc n s.heap = .ok p h' ∧
      (p = 0 ↔ ∀ i b, blk i = some b → b.free = true → b.size < need n) ∧
      (p = 0 → h' = s.heap) ∧
      (p ≠ 0 → ∃ it b, (s.heap.candidates (need n) links).argmin s.heap.size = some it ∧
        blk it = some b ∧ b.free = true ∧ p = s.heap.pointer it ∧ Split blk links it (need n) b h' ∧
        ∀ j c, blk j = some c → c.free = false → ∀ x, j ≤ x → x < j + c.size →
          h'.cells x = s.heap.cells x) := by
  obtain ⟨blk, links, g⟩ := hs.good
  obtain ⟨p, h', hr, a⟩ := wp_returns (g.inv.wp_malloc_choice n)
  exact ⟨blk, links, p, h', g.inv, hr, g.inv.malloc_chooses hn hmax a⟩

/-- Two free blocks, of which the smaller one is behind the other in the list. -/
theorem malloc_best_four : ∃ s, Reachable 0x1000#32 256#32 s ∧
    ∃ blk links p h', Inv s.heap blk links ∧ malloc 4#32 s.heap = .ok p h' ∧
      (p = 0 ↔ ∀ i b, blk i = some b → b.free = true → b.size < need 4#32) ∧
      (p = 0 → h' = s.heap) ∧
      (p ≠ 0 → ∃ it b, (s.heap.candidates (need 4#32) links).argmin s.heap.size = some it ∧
        blk it = some b ∧ b.free = true ∧ p = s.heap.pointer it ∧
        Split blk links it (need 4#32) b h' ∧
        ∀ j c, blk j = some c → c.free = false → ∀ x, j ≤ x → x < j + c.size →
          h'.cells x = s.heap.cells x) := by
  obtain ⟨s, hs, -⟩ := reachable_of_eval [.malloc 8#32, .malloc 8#32, .free 0x101c#32]
    (fun _ => true) (by decide +kernel)
  exact ⟨s, hs, malloc_best hs (by decide) (by decide)⟩

end OsKernel.KernelHeap
