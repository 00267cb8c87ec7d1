import OsKernel.Heap.Free

/-!
# The heap over a run

From `heapInit` on, over any calls of `malloc` and `free` and any writes of the clients into
the payloads that they hold.

`Good` is the invariant with the clients in it: the blocks in use, but for the two ends, are
those that were handed out. `Good.step` has one case for each kind of step and is an assembly
of `Heap/Malloc.lean` and `Heap/Free.lean`; a write changes no first word, last word or link,
as payloads have none.

The results are of three kinds. `heap_sound` is for the clients: payloads are apart, lie in
the range, and stay as they are whatever the heap does. `malloc_large_enough` is about the
rounding of the size, which wraps for the last few values below 2³². `second_free_caught` is
about a block that is given back twice: what the code notices depends on whether the header is
still the first word of a block, and so on what became of its neighbours.
-/

set_option autoImplicit false

namespace OsKernel.KernelHeap

open Lib Prog

variable {h h' : Heap} {blk : Blocks} {links : List Int} {i n : Int} {b : Block}
variable {s t : State} {base bytes : Word} {len : Int}

/-- The payload of a block in use is of no concern to the heap. -/
theorem Inv.payload (I : Inv h blk links) (hi : blk i = some b) (htaken : b.free = false)
    (hbase : h'.base = h.base) (hlen : h'.len = h.len) (havail : h'.avail = h.avail)
    (hcells : ∀ y, ¬(i < y ∧ y < i + b.size - 1) → h'.cells y = h.cells y) : Inv h' blk links := by
  refine ⟨I.toLayout.congr hbase hlen fun {j c} hj => ?_, havail ▸ I.linked.congr fun j hj => ?_,
    I.listed⟩
  · constructor
    · exact hcells j fun hy => (I.interior hi hy.1 hy.2 hj).1 rfl
    · exact hcells _ fun hy => (I.interior hi hy.1 hy.2 hj).2 rfl
  · obtain ⟨e, he, hfree⟩ := (I.listed j).mp hj
    have hbig := (I.free_inside he hfree).2.2
    have hap := I.tiling.apart hi he (taken_ne_free hi he htaken hfree)
    exact ⟨hcells _ (by omega), hcells _ (by omega)⟩

/-- A block that is neither at the begin nor at the end. -/
theorem Inv.inner (I : Inv h blk links) (hi : blk i = some b) (h0 : i ≠ 0) (hl : i ≠ h.len - 2) :
    2 ≤ i ∧ i + b.size ≤ h.len - 2 ∧ 4 ≤ b.size := by
  have hin := I.tiling.inside hi
  have hap := I.tiling.apart hi I.last hl
  have htwo : ((⟨2, false⟩ : Block).size : Int) = 2 := rfl
  exact ⟨I.tiling.disjoint I.first hi (by omega), by omega, I.big hi h0 hl⟩

section Live

variable {live : Int → Bool} {blk' : Blocks} {last j k : Int}

/-- The live pointers are the blocks in use between the two ends: also when a block has come, -/
theorem live_handOut
    (hlive : ∀ i, live i = true ↔ ∃ b, blk i = some b ∧ b.free = false ∧ i ≠ 0 ∧ i ≠ last)
    (hj : j ≠ 0) (hlast : j ≠ last)
    (taken : ∀ i b, b.free = false → (blk' i = some b ↔ blk i = some b ∨ (i = j ∧ b = ⟨k, false⟩)))
    (i : Int) : Function.update live j true i = true ↔
      ∃ b, blk' i = some b ∧ b.free = false ∧ i ≠ 0 ∧ i ≠ last := by
  by_cases hi : i = j
  · subst hi
    rw [Function.update_self]
    exact ⟨fun _ => ⟨_, (taken i _ rfl).mpr (.inr ⟨rfl, rfl⟩), rfl, hj, hlast⟩, fun _ => rfl⟩
  · rw [Function.update_of_ne hi, hlive]
    constructor
    · rintro ⟨c, hc, hcf, hends⟩
      exact ⟨c, (taken i c hcf).mpr (.inl hc), hcf, hends⟩
    · rintro ⟨c, hc, hcf, hends⟩
      rcases (taken i c hcf).mp hc with hc | hc
      · exact ⟨c, hc, hcf, hends⟩
      · exact absurd hc.1 hi

/-- and when one is gone. -/
theorem live_giveBack
    (hlive : ∀ i, live i = true ↔ ∃ b, blk i = some b ∧ b.free = false ∧ i ≠ 0 ∧ i ≠ last)
    (taken : ∀ i b, b.free = false → (blk' i = some b ↔ blk i = some b ∧ i ≠ j)) (i : Int) :
    Function.update live j false i = true ↔
      ∃ b, blk' i = some b ∧ b.free = false ∧ i ≠ 0 ∧ i ≠ last := by
  by_cases hi : i = j
  · subst hi
    rw [Function.update_self]
    refine ⟨(fun h0 => by cases h0), ?_⟩
    rintro ⟨c, hc, hcf, -⟩
    exact absurd rfl ((taken i c hcf).mp hc).2
  · rw [Function.update_of_ne hi, hlive]
    constructor
    · rintro ⟨c, hc, hcf, hends⟩
      exact ⟨c, (taken i c hcf).mpr ⟨hc, hi⟩, hcf, hends⟩
    · rintro ⟨c, hc, hcf, hends⟩
      exact ⟨c, ((taken i c hcf).mp hc).1, hcf, hends⟩

end Live

/-- What holds in every state: the blocks in use are those that were handed out, and the header of
a block given back is no longer negative if `kept`. -/
structure Good (base : Word) (len : Int) (s : State) (blk : Blocks) (links : List Int) : Prop where
  inv : Inv s.heap blk links
  base_eq : s.heap.base = base
  len_eq : s.heap.len = len
  live : ∀ i, s.live i = true ↔ ∃ b, blk i = some b ∧ b.free = false ∧ i ≠ 0 ∧ i ≠ len - 2
  freed : ∀ i f, s.freed i = some f → f.kept = true → 2 ≤ i ∧ i + 2 ≤ len ∧
    0 ≤ s.heap.cells i ∧ ∀ j b, blk j = some b → b.free = false → ¬(j ≤ i ∧ i < j + b.size)

/-- The null pointer and the one of a request for nothing. -/
theorem free_nothing {p : Word} (hp : p = 0 ∨ p = h.base) : free p h = .ok () h := by
  have hw : wp (free p) (fun _ h' => h' = h) (fun _ _ => False) h := by
    unfold free
    rw [wp_bind, wp_get, wp_ite]
    split
    · rfl
    · rename_i h0
      rw [wp_ite, if_pos (hp.resolve_left h0)]
      rfl
  obtain ⟨_, h', hr, rfl⟩ := wp_returns hw
  exact hr

namespace Good

/-- The block of a live pointer. -/
theorem block (g : Good base len s blk links) (hi : s.live i = true) :
    ∃ b, blk i = some b ∧ b.free = false ∧ 2 ≤ i ∧ i + b.size ≤ len - 2 ∧ 4 ≤ b.size := by
  obtain ⟨b, hb, hfree, h0, hl⟩ := (g.live i).mp hi
  have hin := g.inv.inner hb h0 (g.len_eq ▸ hl)
  rw [g.len_eq] at hin
  exact ⟨b, hb, hfree, hin⟩

theorem malloc (g : Good base len s blk links) {bytes p : Word} (a : Answer s.heap blk bytes p h) :
    ∃ blk' links', Good base len (s.handOut h p) blk' links' := by
  cases a with
  | nothing hb hp hh =>
    subst hh
    unfold State.handOut
    rw [if_pos (.inr hp)]
    exact ⟨blk, links, g⟩
  | none hb hp hh =>
    subst hh
    unfold State.handOut
    rw [if_pos (.inl hp)]
    exact ⟨blk, links, g⟩
  | block i k blk' links' hb hp I t hk =>
    have hlen := g.len_eq
    obtain ⟨c, hc, hcfree, hkc⟩ := t.inFree
    have hin := g.inv.free_inside hc hcfree
    have hbig := t.big
    obtain ⟨hidx, hne⟩ := t.index g.inv.toLayout
    rw [← hp] at hidx
    have htaken : blk' i = some ⟨k, false⟩ := (t.taken i _ rfl).mpr (.inr ⟨rfl, rfl⟩)
    unfold State.handOut
    rw [if_neg (by rw [hp, t.base]; exact not_or.mpr hne)]
    refine ⟨blk', links', I, t.base.trans g.base_eq, t.len.trans g.len_eq, fun j => ?_,
      fun j f hf hkept => ?_⟩
    · show Function.update s.live (h.index p) true j = true ↔ _
      rw [hidx]
      exact live_handOut g.live (by omega) (by omega) t.taken j
    · have hf' : ((s.freed j).bind fun f => f.after j (h.index p) (h.size (h.index p))) = some f :=
        hf
      obtain ⟨f₀, hf₀, hafter⟩ := Option.bind_eq_some_iff.mp hf'
      rw [hidx, I.size_eq htaken] at hafter
      unfold Freed.after at hafter
      split at hafter
      · cases hafter
      · obtain rfl := Option.some.inj hafter
        obtain ⟨hk₀, hout⟩ := Bool.and_eq_true_iff.mp hkept
        have hout' : ¬(i ≤ j ∧ j < i + k) := by
          rw [Bool.not_eq_true', decide_eq_false_iff_not] at hout
          exact hout
        obtain ⟨h2, hend, hsign, hno⟩ := g.freed j f₀ hf₀ hk₀
        refine ⟨h2, hend, t.sign j hsign hout', fun j' e he hef => ?_⟩
        rcases (t.taken j' e hef).mp he with he | ⟨rfl, rfl⟩
        · exact hno j' e he hef
        · exact hout'

theorem free (g : Good base len s blk links) (hi : s.live i = true) {blk' : Blocks}
    {links' : List Int} (I : Inv h blk' links') (v : Gave s.heap blk i h blk') :
    Good base len (s.giveBack h i) blk' links' := by
  obtain ⟨b, hb, hbf, h2, hend, hbig⟩ := g.block hi
  refine ⟨I, v.base.trans g.base_eq, v.len.trans g.len_eq, fun j => ?_, fun j f hf hkept => ?_⟩
  · exact live_giveBack g.live v.taken j
  · have hf' : Function.update s.freed i
        (some ⟨s.heap.size i, s.heap.isTaken (s.heap.left i)⟩) j = some f := hf
    by_cases hj : j = i
    · subst hj
      rw [Function.update_self] at hf'
      obtain rfl := Option.some.inj hf'
      refine ⟨h2, by omega, Int.le_of_lt (v.header hkept), fun j' e he hef hmem => ?_⟩
      obtain ⟨he', hne⟩ := (v.taken j' e hef).mp he
      exact hne (g.inv.tiling.unique he' hb (x := j) hmem ⟨Int.le_refl _, by omega⟩)
    · rw [Function.update_of_ne hj] at hf'
      obtain ⟨h2', hend', hsign, hno⟩ := g.freed j f hf' hkept
      refine ⟨h2', hend', v.sign j hsign, fun j' e he hef => ?_⟩
      exact hno j' e ((v.taken j' e hef).mp he).1 hef

theorem write (g : Good base len s blk links) (hi : s.live i = true) {x v : Int} (hx : i < x)
    (hx' : x < s.heap.footerFromHeader i) :
    Good base len { s with heap := s.heap.put x v } blk links := by
  obtain ⟨b, hb, hbf, h2, hend, hbig⟩ := g.block hi
  have hfoot : x < i + b.size - 1 := by
    unfold Heap.footerFromHeader at hx'
    rw [g.inv.size_eq hb] at hx'
    exact hx'
  have hput : ∀ {y}, y ≠ x → (s.heap.put x v).cells y = s.heap.cells y := by
    intro y hy
    rw [Heap.put_cells, if_neg hy]
  refine ⟨g.inv.payload hb hbf rfl rfl rfl fun y hy => hput fun hyx => hy ?_, g.base_eq, g.len_eq,
    g.live, fun j f hf hkept => ?_⟩
  · rw [hyx]
    exact ⟨hx, hfoot⟩
  · obtain ⟨h2', hend', hsign, hno⟩ := g.freed j f hf hkept
    refine ⟨h2', hend', ?_, hno⟩
    have hni := hno i b hb hbf
    show 0 ≤ (s.heap.put x v).cells j
    rw [hput (by omega)]
    exact hsign

theorem free_returns (g : Good base len s blk links) (hi : s.live i = true) :
    ∃ h', KernelHeap.free (s.heap.pointer i) s.heap = .ok () h' ∧
      ∃ blk' links', Inv h' blk' links' ∧ Gave s.heap blk i h' blk' := by
  obtain ⟨b, hb, hbf, h2, hend, -⟩ := g.block hi
  obtain ⟨_, h', hr, hv⟩ := wp_returns (g.inv.wp_free hb hbf h2 (by rw [g.len_eq]; exact hend))
  exact ⟨h', hr, hv⟩

/-- One step. -/
theorem step (g : Good base len s blk links) {op : Op} (hs : step s op = some t) :
    ∃ blk' links', Good base len t blk' links' := by
  cases op with
  | malloc bytes =>
    obtain ⟨p, h', hr, a⟩ := wp_returns (g.inv.wp_malloc bytes)
    simp only [KernelHeap.step, hr, Option.some.injEq] at hs
    subst hs
    exact g.malloc a
  | free p =>
    simp only [KernelHeap.step] at hs
    split at hs
    · rename_i hp
      rw [free_nothing hp] at hs
      obtain rfl := Option.some.inj hs
      exact ⟨blk, links, g⟩
    · split at hs
      · rename_i hlive
        obtain ⟨hl, hp⟩ := hlive
        obtain ⟨h', hr, blk', links', I, v⟩ := g.free_returns hl
        rw [← hp] at hr
        rw [hr] at hs
        obtain rfl := Option.some.inj hs
        exact ⟨blk', links', g.free hl I v⟩
      · cases hs
  | write i x v =>
    simp only [KernelHeap.step] at hs
    split at hs
    · rename_i hw
      obtain rfl := Option.some.inj hs
      exact ⟨blk, links, g.write hw.1 hw.2.1 hw.2.2⟩
    · cases hs

end Good

/-! ## The start

`heapInit` makes the two ends and one free block, and then allocates the lock: the first call of
`malloc` is part of it, and so is its answer. -/

/-- The blocks that `heapInit` makes. -/
def initialBlocks (len : Int) : Blocks :=
  Function.update (twoPieces 0 2 ⟨2, false⟩ ⟨len - 4, true⟩) (len - 2) (some ⟨2, false⟩)

theorem initialBlocks_eq (hlen : 8 ≤ len) :
    initialBlocks len i = some b ↔ (i = 0 ∧ b = ⟨2, false⟩) ∨ (i = 2 ∧ b = ⟨len - 4, true⟩) ∨
      (i = len - 2 ∧ b = ⟨2, false⟩) := by
  unfold initialBlocks
  by_cases hi : i = len - 2
  · subst hi
    rw [Function.update_self]
    constructor
    · intro hb
      exact .inr (.inr ⟨rfl, (Option.some.inj hb).symm⟩)
    · rintro (⟨h0, -⟩ | ⟨h2, -⟩ | ⟨-, rfl⟩)
      · omega
      · omega
      · rfl
  · rw [Function.update_of_ne hi, twoPieces_eq (by decide)]
    constructor
    · rintro (hb | hb)
      · exact .inl hb
      · exact .inr (.inl hb)
    · rintro (hb | hb | ⟨hl, -⟩)
      · exact .inl hb
      · exact .inr hb
      · exact absurd hl hi

theorem initialBlocks_tiling (hlen : 8 ≤ len) : Tiling Block.size 0 len (initialBlocks len) := by
  constructor
  · intro i c hc
    rcases (initialBlocks_eq hlen).mp hc with ⟨rfl, rfl⟩ | ⟨rfl, rfl⟩ | ⟨rfl, rfl⟩
    · simp only
      omega
    · simp only
      omega
    · simp only
      omega
  · intro i j c c' hc hc' hlt
    rcases (initialBlocks_eq hlen).mp hc with ⟨rfl, rfl⟩ | ⟨rfl, rfl⟩ | ⟨rfl, rfl⟩
    · rcases (initialBlocks_eq hlen).mp hc' with ⟨rfl, -⟩ | ⟨rfl, -⟩ | ⟨rfl, -⟩
      · omega
      · exact Int.le_refl _
      · simp only
        omega
    · rcases (initialBlocks_eq hlen).mp hc' with ⟨rfl, -⟩ | ⟨rfl, -⟩ | ⟨rfl, -⟩
      · omega
      · omega
      · simp only
        omega
    · rcases (initialBlocks_eq hlen).mp hc' with ⟨rfl, -⟩ | ⟨rfl, -⟩ | ⟨rfl, -⟩
      · omega
      · omega
      · omega
  · intro x hx hx'
    by_cases h2 : x < 2
    · exact ⟨0, _, (initialBlocks_eq hlen).mpr (.inl ⟨rfl, rfl⟩), hx, h2⟩
    · by_cases hl : x < len - 2
      · refine ⟨2, _, (initialBlocks_eq hlen).mpr (.inr (.inl ⟨rfl, rfl⟩)), by omega, ?_⟩
        simp only
        omega
      · refine ⟨len - 2, _, (initialBlocks_eq hlen).mpr (.inr (.inr ⟨rfl, rfl⟩)), by omega, ?_⟩
        simp only
        omega

/-- The array before the lock is allocated. -/
def initialHeap (base : Word) (len : Int) (cells : Int → Int) : Heap :=
  let h : Heap := { base := base, cells := cells, len := len, avail := 0 }
  let h := h.makeTaken 0 2
  let h := h.makeAvail 2 (len - 4)
  h.makeTaken (len - 2) 2

theorem initialHeap_inv {cells : Int → Int} (hlen : 8 ≤ len)
    (hfits : base.toNat + 4 * len ≤ 2 ^ 32) :
    Inv (initialHeap base len cells) (initialBlocks len) [2] := by
  have hcells : ∀ x, (initialHeap base len cells).cells x =
      if x = len - 1 then -2 else if x = len - 2 then -2 else if x = 4 then 0 else
      if x = 3 then 0 else if x = len - 3 then len - 4 else if x = 2 then len - 4 else
      if x = 1 then -2 else if x = 0 then -2 else cells x := by
    intro x
    have hend : len - 2 + 2 - 1 = len - 1 := by omega
    have hfoot : 2 + (len - 4) - 1 = len - 3 := by omega
    simp only [initialHeap]
    rw [Heap.makeTaken_cells (by decide), Heap.makeAvail_cells (by omega),
      Heap.makeTaken_cells (by decide), hend, hfoot]
    simp only [Heap.makeTaken_avail, ne_eq, not_true_eq_false, false_and, if_false]
    rfl
  -- three blocks: a taken one at each end, and the free one between them
  refine ⟨⟨initialBlocks_tiling hlen, fun hi => ?_, ?_, ?_, fun hi h0 hl => ?_,
    fun {i b c} hi hfree hc => ?_, hfits, hlen⟩, ?_, fun i => ?_⟩
  · rcases (initialBlocks_eq hlen).mp hi with ⟨rfl, rfl⟩ | ⟨rfl, rfl⟩ | ⟨rfl, rfl⟩
    · constructor
      · rw [hcells, if_neg (by omega), if_neg (by omega), if_neg (by decide), if_neg (by decide),
          if_neg (by omega), if_neg (by decide), if_neg (by decide), if_pos rfl]
        rfl
      · show (initialHeap base len cells).cells 1 = -2
        rw [hcells, if_neg (by omega), if_neg (by omega), if_neg (by decide), if_neg (by decide),
          if_neg (by omega), if_neg (by decide), if_pos rfl]
    · constructor
      · rw [hcells, if_neg (by omega), if_neg (by omega), if_neg (by decide), if_neg (by decide),
          if_neg (by omega), if_pos rfl]
        rfl
      · show (initialHeap base len cells).cells (2 + (len - 4) - 1) = len - 4
        rw [hcells, if_neg (by omega), if_neg (by omega), if_neg (by omega), if_neg (by omega),
          if_pos (by omega)]
    · constructor
      · rw [hcells, if_neg (by omega), if_pos rfl]
        rfl
      · show (initialHeap base len cells).cells (len - 2 + 2 - 1) = -2
        rw [hcells, if_pos (by omega)]
  · exact (initialBlocks_eq hlen).mpr (.inl ⟨rfl, rfl⟩)
  · exact (initialBlocks_eq hlen).mpr (.inr (.inr ⟨rfl, rfl⟩))
  · rcases (initialBlocks_eq hlen).mp hi with ⟨rfl, rfl⟩ | ⟨rfl, rfl⟩ | ⟨rfl, rfl⟩
    · exact absurd rfl h0
    · show 4 ≤ len - 4
      omega
    · exact absurd rfl hl
  · rcases (initialBlocks_eq hlen).mp hi with ⟨rfl, rfl⟩ | ⟨rfl, rfl⟩ | ⟨rfl, rfl⟩
    · cases hfree
    · rcases (initialBlocks_eq hlen).mp hc with ⟨-, rfl⟩ | ⟨hx, -⟩ | ⟨-, rfl⟩
      · rfl
      · have hx' : 2 + (len - 4) = 2 := hx
        omega
      · rfl
    · cases hfree
  · refine ⟨List.nodup_singleton 2, by decide, 2, rfl, ?_, ?_, rfl⟩
    · show (initialHeap base len cells).cells (2 + 2) = 0
      rw [hcells, if_neg (by omega), if_neg (by omega), if_pos (by decide)]
    · show (initialHeap base len cells).cells (2 + 1) = 0
      rw [hcells, if_neg (by omega), if_neg (by omega), if_neg (by decide), if_pos (by decide)]
  · rw [List.mem_singleton]
    constructor
    · rintro rfl
      exact ⟨_, (initialBlocks_eq hlen).mpr (.inr (.inl ⟨rfl, rfl⟩)), rfl⟩
    · rintro ⟨c, hc, hf⟩
      rcases (initialBlocks_eq hlen).mp hc with ⟨rfl, rfl⟩ | ⟨rfl, rfl⟩ | ⟨rfl, rfl⟩
      · cases hf
      · rfl
      · cases hf

/-- The state after `heapInit`. -/
theorem Good.init {lockBytes p : Word} {cells : Int → Int} (hlock : lockBytes ≠ 0)
    (hlen : 8 ≤ (bytes / 4#32).toNat) (hfits : base.toNat + bytes.toNat ≤ 2 ^ 32)
    (hinit : heapInit base bytes lockBytes cells = .ok (p, h)) :
    ∃ blk links, Good base (bytes / 4#32).toNat (State.init p h) blk links := by
  have hquarter : (bytes / 4#32).toNat * 4 ≤ bytes.toNat := by
    rw [BitVec.toNat_udiv]
    exact Nat.div_mul_le_self ..
  have I : Inv (initialHeap base (bytes / 4#32).toNat cells)
      (initialBlocks (bytes / 4#32).toNat) [2] := initialHeap_inv (by omega) (by omega)
  have g : Good base (bytes / 4#32).toNat
      ⟨initialHeap base (bytes / 4#32).toNat cells, fun _ => false, fun _ => none⟩
      (initialBlocks (bytes / 4#32).toNat) [2] := by
    refine ⟨I, rfl, rfl, fun i => ⟨(fun hl => by cases hl), ?_⟩, fun i f hf => by cases hf⟩
    rintro ⟨c, hc, hf, h0, hl⟩
    rcases (initialBlocks_eq (by omega)).mp hc with ⟨rfl, -⟩ | ⟨-, rfl⟩ | ⟨rfl, -⟩
    · exact absurd rfl h0
    · cases hf
    · exact absurd rfl hl
  have hnew : new lockBytes (initialHeap base (bytes / 4#32).toNat cells) = .ok p h := by
    unfold heapInit at hinit
    dsimp only at hinit
    split at hinit
    · rename_i hr
      cases hinit
      exact hr
    · cases hinit
  obtain ⟨p', h', hr, a⟩ := wp_returns (I.wp_malloc lockBytes)
  have hw : wp (new lockBytes) (fun q h'' => q = p' ∧ h'' = h' ∧ q ≠ 0) (fun _ _ => True)
      (initialHeap base (bytes / 4#32).toNat cells) := by
    unfold new
    rw [wp_bind]
    unfold wp
    rw [hr]
    by_cases h0 : p' = 0
    · simp only [h0, if_true]
      trivial
    · simp only [h0, if_false]
      exact ⟨rfl, rfl, h0⟩
  obtain ⟨rfl, rfl, h0⟩ := wp_ok hw hnew
  have hbase : p ≠ h.base := by
    cases a with
    | nothing hb _ _ => exact absurd hb hlock
    | none _ hp _ _ => exact absurd hp h0
    | block i k blk' links' _ hp _ t _ =>
      rw [hp, t.base]
      exact (t.index I.toLayout).2.2
  have hout := g.malloc a
  unfold State.handOut at hout
  rw [if_neg (not_or.mpr ⟨h0, hbase⟩)] at hout
  exact hout

/-! ## Every reachable state

The results about the kernel's heap are of two kinds. Some say what a call does in every reachable
state; those need `Reachable.good` and the specification of the call. The others compare two calls
or look at what a freed block leaves behind, and need the record of frees that the state carries
for this purpose (`freed`). -/

/-- Reached from `heapInit(base, bytes)`, over a range of at least eight words. -/
def Reachable (base bytes : Word) (s : State) : Prop :=
  ∃ lockBytes cells p h ops, lockBytes ≠ 0 ∧ 8 ≤ (bytes / 4#32).toNat ∧
    base.toNat + bytes.toNat ≤ 2 ^ 32 ∧ heapInit base bytes lockBytes cells = .ok (p, h) ∧
    runs step (State.init p h) ops = some s

/-- A state of a heap of 64 words, found by evaluation. -/
theorem reachable_of_eval (ops : List Op) (test : State → Bool)
    (heval : (match heapInit 0x1000#32 256#32 4#32 (fun _ => 0) with
      | .ok (p, h) => (runs step (State.init p h) ops).any test
      | .error _ => false) = true) : ∃ s, Reachable 0x1000#32 256#32 s ∧ test s = true := by
  cases hinit : heapInit 0x1000#32 256#32 4#32 (fun _ => 0) with
  | error e =>
    rw [hinit] at heval
    cases heval
  | ok r =>
    obtain ⟨p, h⟩ := r
    rw [hinit] at heval
    obtain ⟨s, hr, ht⟩ := (Option.any_eq_true _ _).mp heval
    exact ⟨s, ⟨4#32, fun _ => 0, p, h, ops, by decide, by decide, by decide, hinit, hr⟩, ht⟩

theorem Reachable.good (hs : Reachable base bytes s) :
    ∃ blk links, Good base (bytes / 4#32).toNat s blk links := by
  obtain ⟨lockBytes, cells, p, h, ops, hlock, hlen, hfits, hinit, hr⟩ := hs
  refine @runs_inv _ _ _ (fun _ _ => True)
    (fun t => ∃ blk links, Good base (bytes / 4#32).toNat t blk links) ?_ _ _ _ (Good.init hlock hlen hfits hinit)
    (RunOk.of_forall (fun _ _ => trivial) ops _) hr
  rintro t op u ⟨blk, links, g⟩ - hu
  exact g.step hu

/-- The words between the header and the footer. -/
def State.Payload (s : State) (i x : Int) : Prop := i < x ∧ x < s.heap.footerFromHeader i

/-- What a client may give to `free`. -/
def State.MayFree (s : State) (p : Word) : Prop :=
  p = 0 ∨ p = s.heap.base ∨ ∃ i, s.live i = true ∧ p = s.heap.pointer i

/-- A payload lies in a block in use. -/
theorem Good.payload (g : Good base len s blk links) {x : Int} (hi : s.live i = true)
    (hx : s.Payload i x) : ∃ b, blk i = some b ∧ b.free = false ∧ i < x ∧ x < i + b.size - 1 ∧
      2 ≤ i ∧ i + b.size ≤ len - 2 := by
  obtain ⟨b, hb, hbf, h2, hend, -⟩ := g.block hi
  obtain ⟨hlo, hhi⟩ := hx
  unfold Heap.footerFromHeader at hhi
  rw [g.inv.size_eq hb] at hhi
  exact ⟨b, hb, hbf, hlo, hhi, h2, hend⟩

theorem Good.malloc_frame (g : Good base len s blk links) (n : Word) :
    ∃ p h', KernelHeap.malloc n s.heap = .ok p h' ∧
      ∀ i x, s.live i = true → s.Payload i x → h'.cells x = s.heap.cells x := by
  obtain ⟨p, h', hr, a⟩ := wp_returns (g.inv.wp_malloc n)
  refine ⟨p, h', hr, fun i x hi hx => ?_⟩
  obtain ⟨b, hb, hbf, hlo, hhi, -, -⟩ := g.payload hi hx
  cases a with
  | nothing _ _ hh => rw [hh]
  | none _ _ hh _ => rw [hh]
  | block j k blk' links' _ _ _ t _ => exact t.frame i b hb hbf x (by omega) (by omega)

theorem Good.free_frame (g : Good base len s blk links) {p : Word} (hp : s.MayFree p) :
    ∃ h', KernelHeap.free p s.heap = .ok () h' ∧ ∀ i x, s.live i = true →
      p ≠ s.heap.pointer i → s.Payload i x → h'.cells x = s.heap.cells x := by
  have hnothing : p = 0 ∨ p = s.heap.base → ∃ h', KernelHeap.free p s.heap = .ok () h' ∧
      ∀ i x, s.live i = true → p ≠ s.heap.pointer i → s.Payload i x →
        h'.cells x = s.heap.cells x := fun h0 => ⟨s.heap, free_nothing h0, fun _ _ _ _ _ => rfl⟩
  rcases hp with h0 | hb | ⟨j, hj, rfl⟩
  · exact hnothing (.inl h0)
  · exact hnothing (.inr hb)
  · obtain ⟨h', hr, blk', links', -, v⟩ := g.free_returns hj
    refine ⟨h', hr, fun i x hi hne hx => ?_⟩
    obtain ⟨b, hb, hbf, hlo, hhi, -, -⟩ := g.payload hi hx
    refine v.frame i b hb hbf (fun hij => hne (hij ▸ rfl)) x (by omega) (by omega)

/-- The blocks fill the array, the list has the free ones, the payloads handed out are apart and
inside, and neither operation writes into one. Of the runs that free the block of `heapInit`'s lock it
speaks as well; they are not those of the code, which goes on using the lock. -/
theorem heap_sound (hs : Reachable base bytes s) :
    (∃ blk links, Inv s.heap blk links ∧ s.heap.base = base ∧
      s.heap.len = (bytes / 4#32).toNat ∧
      ∀ i, s.live i = true ↔ ∃ b, blk i = some b ∧ b.free = false ∧ i ≠ 0 ∧ i ≠ s.heap.len - 2) ∧
    (∀ i j x, s.live i = true → s.live j = true → s.Payload i x → s.Payload j x → i = j) ∧
    (∀ i, s.live i = true → (base.toNat : Int) ≤ (s.heap.pointer i).toNat ∧
      ((s.heap.pointer i).toNat : Int) + 4 * (s.heap.footerFromHeader i - (i + 1)) ≤
        base.toNat + bytes.toNat) ∧
    (∀ n, ∃ p h', malloc n s.heap = .ok p h' ∧
      ∀ i x, s.live i = true → s.Payload i x → h'.cells x = s.heap.cells x) ∧
    ∀ p, s.MayFree p → ∃ h', free p s.heap = .ok () h' ∧ ∀ i x, s.live i = true →
      p ≠ s.heap.pointer i → s.Payload i x → h'.cells x = s.heap.cells x := by
  obtain ⟨blk, links, g⟩ := hs.good
  have hquarter : (bytes / 4#32).toNat * 4 ≤ bytes.toNat := by
    rw [BitVec.toNat_udiv]
    exact Nat.div_mul_le_self ..
  refine ⟨⟨blk, links, g.inv, g.base_eq, g.len_eq, fun i => ?_⟩, fun i j x hi hj hx hx' => ?_,
    fun i hi => ?_, g.malloc_frame, fun p => g.free_frame⟩
  · rw [g.len_eq]
    exact g.live i
  · obtain ⟨b, hb, -, hlo, hhi, -, -⟩ := g.payload hi hx
    obtain ⟨c, hc, -, hlo', hhi', -, -⟩ := g.payload hj hx'
    exact g.inv.tiling.unique hb hc (x := x) (by omega) (by omega)
  · obtain ⟨b, hb, -, h2, hend, hbig⟩ := g.block hi
    have hlen := g.len_eq
    have hp := pointer_toNat g.inv.fits (i := i) (by omega) (by omega)
    rw [g.base_eq] at hp
    unfold Heap.footerFromHeader
    rw [g.inv.size_eq hb]
    omega

theorem heap_sound_two : ∃ s, Reachable 0x1000#32 256#32 s ∧ s.live 6 = true ∧ s.live 10 = true ∧
    ∃ p h', malloc 8#32 s.heap = .ok p h' ∧
      ∀ i x, s.live i = true → s.Payload i x → h'.cells x = s.heap.cells x := by
  obtain ⟨s, hs, hlive⟩ := reachable_of_eval [.malloc 8#32, .malloc 8#32]
    (fun s => s.live 6 && s.live 10) (by decide +kernel)
  obtain ⟨h6, h10⟩ := Bool.and_eq_true_iff.mp hlive
  exact ⟨s, hs, h6, h10, (heap_sound hs).2.2.2.1 8#32⟩

/-- The words for a request, if rounding it up does not overflow. -/
theorem le_ints {n : Word} (hn : n.toNat ≤ 2 ^ 32 - 4) : (n.toNat : Int) ≤ 4 * (ints n - 2) := by
  have hwords : ((n + 3#32) / 4#32 + 2#32).toNat = (n.toNat + 3) / 4 + 2 := by
    have hsum : (n + 3#32).toNat = n.toNat + 3 := by
      rw [BitVec.toNat_add]
      exact Nat.mod_eq_of_lt (by show n.toNat + 3 < 2 ^ 32; omega)
    rw [BitVec.toNat_add, BitVec.toNat_udiv, hsum]
    exact Nat.mod_eq_of_lt (by show (n.toNat + 3) / 4 + 2 < 2 ^ 32; omega)
  unfold ints
  dsimp only
  rw [hwords]
  split <;> omega

/-- The smallest block, if it does. -/
theorem ints_overflow {n : Word} (hn : 2 ^ 32 - 4 < n.toNat) : ints n = 4 := by
  have hwords : ((n + 3#32) / 4#32 + 2#32).toNat = 2 := by
    have hsum : (n + 3#32).toNat = n.toNat + 3 - 2 ^ 32 := by
      have hlt := n.isLt
      rw [BitVec.toNat_add]
      show (n.toNat + 3) % 2 ^ 32 = _
      omega
    have hlt := n.isLt
    rw [BitVec.toNat_add, BitVec.toNat_udiv, hsum]
    show ((n.toNat + 3 - 2 ^ 32) / 4 + 2) % 2 ^ 32 = 2
    omega
  unfold ints
  dsimp only
  rw [hwords]
  rfl

/-- The room behind the pointer that `malloc` returns. -/
theorem Good.room (g : Good base len s blk links) {p : Word} {k : Int} {blk' : Blocks}
    {links' : List Int} (hp : p = s.heap.pointer i) (I : Inv h' blk' links')
    (t : Took s.heap blk i k h' blk') :
    h'.footerFromHeader (h'.index p) - (h'.index p + 1) = k - 2 ∧ p ≠ 0 ∧ k ≤ 2 ^ 30 := by
  obtain ⟨c, hc, hcf, hkc⟩ := t.inFree
  have hin := g.inv.free_inside hc hcf
  have hlen := g.inv.len_lt
  have htaken : blk' i = some ⟨k, false⟩ := (t.taken i _ rfl).mpr (.inr ⟨rfl, rfl⟩)
  obtain ⟨hidx, h0, -⟩ := t.index g.inv.toLayout
  rw [hp]
  refine ⟨?_, h0, by omega⟩
  unfold Heap.footerFromHeader
  rw [hidx, I.size_eq htaken]
  show i + k - 1 - (i + 1) = k - 2
  omega

/-- A block of at least `n` bytes, unless rounding `n` up overflows. -/
theorem malloc_large_enough (hs : Reachable base bytes s) {n : Word} (hn : n ≠ 0) :
    (∀ p h', malloc n s.heap = .ok p h' → p ≠ 0 →
      (n.toNat : Int) ≤ 4 * (h'.footerFromHeader (h'.index p) - (h'.index p + 1))) ↔
      n.toNat ≤ 2 ^ 32 - 4 ∨ s.heap.avail = 0 := by
  obtain ⟨blk, links, g⟩ := hs.good
  obtain ⟨p, h', hr, a⟩ := wp_returns (g.inv.wp_malloc n)
  constructor
  · intro henough
    by_contra hno
    obtain ⟨hbig, havail⟩ := not_or.mp hno
    have hints := ints_overflow (n := n) (by omega)
    obtain ⟨b, hb, hbf⟩ := (g.inv.listed _).mp (g.inv.linked.head_mem havail)
    cases a with
    | nothing hb _ _ => exact hn hb
    | none _ _ _ hsmall =>
      have hlt := hsmall _ b hb hbf
      have hbb := (g.inv.free_inside hb hbf).2.2
      omega
    | block i k blk' links' _ hp I t _ =>
      obtain ⟨hroom, h0, hk⟩ := g.room hp I t
      have hle := henough p h' hr h0
      rw [hroom] at hle
      omega
  · intro hcond p' h'' hr' h0
    rw [hr] at hr'
    cases hr'
    cases a with
    | nothing hb _ _ => exact absurd hb hn
    | none _ hp _ _ => exact absurd hp h0
    | block i k blk' links' _ hp I t hk =>
      obtain ⟨hroom, -, -⟩ := g.room hp I t
      rw [hroom]
      rcases hcond with hle | havail
      · have hints := le_ints hle
        omega
      · obtain ⟨c, hc, hcf, -⟩ := t.inFree
        have hnil := g.inv.linked.head_eq_nil.mp havail
        have hmem := (g.inv.listed i).mpr ⟨c, hc, hcf⟩
        rw [hnil] at hmem
        cases hmem

theorem malloc_large_enough_eight : ∃ s, Reachable 0x1000#32 256#32 s ∧
    ∀ p h', malloc 8#32 s.heap = .ok p h' → p ≠ 0 →
      ((8#32 : Word).toNat : Int) ≤ 4 * (h'.footerFromHeader (h'.index p) - (h'.index p + 1)) := by
  obtain ⟨s, hs, -⟩ := reachable_of_eval [] (fun _ => true) (by decide +kernel)
  exact ⟨s, hs, (malloc_large_enough hs (by decide)).mpr (.inl (by decide))⟩

/-- A request for nearly everything gets two words. -/
theorem malloc_two_words : ∃ s, Reachable 0x1000#32 256#32 s ∧
    ∃ p h', malloc 0xfffffffd#32 s.heap = .ok p h' ∧ p ≠ 0 ∧
      ¬((0xfffffffd#32 : Word).toNat : Int) ≤
        4 * (h'.footerFromHeader (h'.index p) - (h'.index p + 1)) := by
  obtain ⟨s, hs, ht⟩ := reachable_of_eval []
    (fun s => (malloc 0xfffffffd#32).test (fun p h' =>
      decide (p ≠ 0 ∧ h'.footerFromHeader (h'.index p) - (h'.index p + 1) = 2)) s.heap)
    (by decide +kernel)
  obtain ⟨p, h', hr, hroom⟩ := test_iff.mp ht
  obtain ⟨hp, hroom⟩ := of_decide_eq_true hroom
  refine ⟨s, hs, p, h', hr, hp, ?_⟩
  rw [hroom]
  decide

/-- A block whose left neighbour was in use when it was given back, and whose header word has not
been handed out since. -/
theorem second_free_caught (hs : Reachable base bytes s) {i : Int} {f : Freed}
    (hf : s.freed i = some f) (hk : f.kept = true) :
    free (s.heap.pointer i) s.heap = .error .freeingFree s.heap := by
  obtain ⟨blk, links, g⟩ := hs.good
  obtain ⟨h2, hend, hsign, -⟩ := g.freed i f hf hk
  have hlen := g.len_eq
  have hne := pointer_ne g.inv.fits (i := i) (by omega) (by omega)
  have hw : wp (free (s.heap.pointer i)) (fun _ _ => False)
      (fun e h' => e = .freeingFree ∧ h' = s.heap) s.heap := by
    unfold free
    rw [wp_bind, wp_get, wp_ite, if_neg hne.1, wp_ite, if_neg hne.2,
      index_pointer g.inv.fits (by omega) (by omega)]
    dsimp only
    rw [wp_ite, if_pos]
    · exact ⟨rfl, rfl⟩
    · have hnot : s.heap.isTaken i = false := decide_eq_false (by omega)
      rw [hnot]
      rfl
  cases hr : free (s.heap.pointer i) s.heap with
  | ok _ h' => exact (wp_ok hw hr).elim
  | error e h' =>
    obtain ⟨rfl, rfl⟩ := wp_error hw hr
    rfl

theorem second_free_caught_six : ∃ s, Reachable 0x1000#32 256#32 s ∧
    free (s.heap.pointer 6) s.heap = .error .freeingFree s.heap := by
  obtain ⟨s, hs, hkept⟩ := reachable_of_eval [.malloc 8#32, .free 0x101c#32]
    (fun s => (s.freed 6).any Freed.kept) (by decide +kernel)
  obtain ⟨f, hf, hk⟩ := (Option.any_eq_true _ _).mp hkept
  exact ⟨s, hs, second_free_caught hs hf hk⟩

/-- The header of a block that was merged with its left neighbour still says that it is in use. -/
theorem second_free_missed : ∃ s, Reachable 0x1000#32 256#32 s ∧ (s.freed 10).isSome = true ∧
    ∃ h', free (s.heap.pointer 10) s.heap = .ok () h' ∧ h'.cells 6 ≠ s.heap.cells 6 := by
  obtain ⟨s, hs, ht⟩ := reachable_of_eval
    [.malloc 8#32, .malloc 8#32, .malloc 8#32, .free 0x101c#32, .free 0x102c#32]
    (fun s => (s.freed 10).isSome && (free (s.heap.pointer 10)).test
      (fun _ h' => decide (h'.cells 6 ≠ s.heap.cells 6)) s.heap) (by decide +kernel)
  obtain ⟨hf, hr⟩ := Bool.and_eq_true_iff.mp ht
  obtain ⟨_, h', hfree, hne⟩ := test_iff.mp hr
  exact ⟨s, hs, hf, h', hfree, of_decide_eq_true hne⟩

end OsKernel.KernelHeap
