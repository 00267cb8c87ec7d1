import OsKernel.Block.ReadAll

/-!
# The block map of a file

`Node::read_block` of `ext2.cc`, over the bytes of the disk. A division by zero and a read
through the null pointer end the process.

Two descriptions stand side by side here, and nothing connects them yet. `readBlock` is the
code, with its four branches, its places in the index blocks as the source computes them, and
its words that wrap around. `assigned` is the layout of ext2: `path` says which entry of
`data` and which entries of the index blocks lead to a block, and `walk` follows them, in
natural numbers. For which blocks they agree is the subject of `Ext2/BlockMap.lean`.

The disk is an `Ide` as a `Device`, and `read_all` is that of `Block/ReadAll.lean`. The last
of its 4 GB cannot be read, as the size of the drive is 0xffffffff. The cache is state,
because the function leaves a number there before it knows that it will find the block. A new
cache holds whatever the heap's memory held.
-/

set_option autoImplicit false

namespace OsKernel.Ext2

open Lib Prog Block

abbrev Word := BitVec 32

/-- Why `read_block` did not return. -/
inductive Stop
  /-- a copy out of the cache where there is none -/
  | nullPointer
  | divide
  | device (e : Block.Stop)

/-- What `read_block` uses of a `Node`. -/
structure Node where
  blockSize : Word
  data : Nat → Word
  cache : Option (Nat → Byte)
  cacheNum : Word

structure State where
  node : Node
  mem : Bytes

/-- The `Ide`: sectors of 512 bytes, and the size that it says it has. -/
def ide (content : Nat → Byte) : Device where
  order := 9
  blockSize := 512
  blockSize_eq := sector_power
  size := 0xffffffff
  content := content

variable (content : Nat → Byte)

/-- `ide->read_all(offset, n, p)` into an object of its own, which holds `old`. -/
def readAll (offset n : Word) (old : Nat → Byte) : Prog Stop State (Nat → Byte) :=
  match (ide content).readAll (n.toNat + 1) offset n 0 ⟨fun a => old a.toNat, [], []⟩ with
  | .ok _ bus => pure fun i => bus.mem (BitVec.ofNat 32 i)
  | .error e _ => throw (.device e)

/-- `ide->read_all(offset, sizeof(uint32_t), (char*) &offset)`. -/
def readWord (offset : Word) : Prog Stop State Word := do
  let b ← readAll content offset 4 fun i => (offset >>> (8 * i)).setWidth 8
  pure (le32 b 0)

/-- `ide->read_all(offset, block_size, cache)`, and `memcpy(buffer, cache, block_size)`, which counts
down a signed number. -/
def deliver (offset buffer : Word) : Prog Stop State Unit := do
  let s ← get
  let bs := s.node.blockSize
  let cache ← readAll content offset bs (s.node.cache.getD fun _ => 0)
  set { node := { s.node with cache := some cache },
        mem := overlay s.mem buffer (if bs.msb then 0 else bs.toNat) cache : State }

/-- `Node::read_block`; `fresh` is what a new cache holds. -/
def readBlock (fresh : Nat → Byte) (number buffer : Word) : Prog Stop State Unit := do
  let s ← get
  let bs := s.node.blockSize
  let data := s.node.data
  if number = s.node.cacheNum then
    match s.node.cache with
    | none => throw .nullPointer
    | some cache =>
      set { s with mem := overlay s.mem buffer (if bs.msb then 0 else bs.toNat) cache }
  else do
    set { s with node := { s.node with
      cache := some (s.node.cache.getD fresh), cacheNum := number } }
    if number < 12 then
      deliver content (data number.toNat * bs) buffer
    else
      let number := number - 12
      let pc1 := bs / 4
      if number < pc1 then do
        let offset ← readWord content (data 12 * bs + number * 4)
        deliver content (offset * bs) buffer
      else
        let number := number - pc1
        let pc2 := pc1 * pc1
        if number < pc2 then do
          let offset ← readWord content (data 13 * bs + number / pc1 * 4)
          let offset ← readWord content (offset * bs + number % pc1)
          deliver content (offset * bs) buffer
        else
          let number := number - pc2
          if pc2 = 0 then throw .divide
          else do
            let offset ← readWord content (data 14 * bs + number / pc2 * 4)
            let offset ← readWord content (offset * bs + number % pc2 / pc1)
            let offset ← readWord content (offset * bs + number % pc1)
            deliver content (offset * bs) buffer

/-! ## The map

What ext2 says, to compare the code with: the twelve direct blocks, then those behind one, two and
three index blocks. `path` is the arithmetic of the format and `walk` follows it on the disk. A
block number of 0 on the way means a block that is not there. -/

/-- Entry `j` of the index block `b`. -/
def entry (blockSize b j : Nat) : Nat := (le32 content (b * blockSize + 4 * j)).toNat

/-- The place in `data` that a block is found from, and its place in each of the index blocks, of
`p` entries, on the way. -/
def path (p n : Nat) : Nat × List Nat :=
  if n < 12 then (n, [])
  else if n - 12 < p then (12, [n - 12])
  else if n - 12 - p < p ^ 2 then (13, [(n - 12 - p) / p, (n - 12 - p) % p])
  else
    let m := n - 12 - p - p ^ 2
    (14, [m / p ^ 2, m % p ^ 2 / p, m % p])

/-- The block at the end of a path. -/
def walk (blockSize : Nat) : Nat → List Nat → Nat
  | b, [] => b
  | b, j :: js => walk blockSize (entry content blockSize b j) js

/-- The blocks on a path are in an image of `imageSize` bytes, and none of them is block 0. -/
def OnImage (blockSize imageSize : Nat) : Nat → List Nat → Prop
  | b, [] => 0 < b ∧ (b + 1) * blockSize ≤ imageSize
  | b, j :: js => (0 < b ∧ (b + 1) * blockSize ≤ imageSize) ∧
    OnImage blockSize imageSize (entry content blockSize b j) js

/-- The block that ext2 assigns to block `n` of the file. -/
def assigned (blockSize : Nat) (data : Nat → Word) (n : Nat) : Nat :=
  walk content blockSize (data (path (blockSize / 4) n).1).toNat (path (blockSize / 4) n).2

/-- The chain of block `n` is sound, on an image smaller than 4 GB. -/
def WellFormed (blockSize : Nat) (data : Nat → Word) (n : Nat) : Prop :=
  ∃ imageSize, imageSize < 2 ^ 32 ∧
    OnImage content blockSize imageSize (data (path (blockSize / 4) n).1).toNat
      (path (blockSize / 4) n).2

/-! ## The steps -/

section Steps

variable {content} {offset n bs buffer : Word} {old : Nat → Byte} {s : State}
variable {E : Stop → State → Prop}

theorem wp_readAll {Q : (Nat → Byte) → State → Prop}
    (h : ∀ b, (∀ i, offset.toNat + i < 2 ^ 32 - 1 → i < n.toNat →
      b i = content (offset.toNat + i)) → Q b s) : wp (readAll content offset n old) Q E s := by
  obtain ⟨cnt, blocks, stores, hrun, -, -, -⟩ := readAll_got (d := ide content)
    (s := ⟨fun a => old a.toNat, [], []⟩) offset n 0 (Nat.lt_succ_self n.toNat)
  have hlt := available_lt (d := ide content) offset n
  unfold readAll
  rw [hrun]
  refine h _ fun i hi hn => ?_
  have hin : i < (ide content).available offset n := by
    have hsize : (ide content).size.toNat = 2 ^ 32 - 1 := rfl
    unfold Device.available
    omega
  have hat := overlay_at (m := fun a => old a.toNat) (a := 0#32)
    (f := fun i => content (offset.toNat + i)) hin (Nat.le_of_lt hlt)
  rw [BitVec.zero_add] at hat
  exact hat

/-- A word that is on the disk. -/
theorem wp_readWord {Q : Word → State → Prop} {x : Nat} (hx : offset.toNat = x)
    (hin : x + 4 < 2 ^ 32) (h : Q (le32 content x) s) : wp (readWord content offset) Q E s := by
  unfold readWord
  rw [wp_bind]
  refine wp_readAll fun b hb => ?_
  have hfour : (4#32 : Word).toNat = 4 := rfl
  have hword : le32 b 0 = le32 content x := by
    unfold le32
    rw [hb 3 (by omega) (by decide), hb 2 (by omega) (by decide), hb 1 (by omega) (by decide),
      hb 0 (by omega) (by decide), hx]
    rfl
  rw [wp_pure, hword]
  exact h

/-- The bytes from `x` on go to the buffer; the last byte of the address space is not read. -/
theorem wp_deliver {Q : Unit → State → Prop} {x : Nat} (hx : offset.toNat = x)
    (hbs : s.node.blockSize.toNat < 2 ^ 31)
    (h : ∀ cache node, (∀ i, x + i < 2 ^ 32 - 1 → i < s.node.blockSize.toNat →
      cache i = content (x + i)) →
      Q () ⟨node, overlay s.mem buffer s.node.blockSize.toNat cache⟩) :
    wp (deliver content offset buffer) Q E s := by
  unfold deliver
  rw [wp_bind, wp_get, wp_bind]
  refine wp_readAll fun cache hcache => ?_
  have hmsb : s.node.blockSize.msb = false := by
    rw [BitVec.msb_eq_false_iff_two_mul_lt]
    omega
  rw [wp_set, hmsb]
  rw [hx] at hcache
  exact h cache _ hcache

/-- A node with an empty cache. -/
def start (bs : Word) (data : Nat → Word) (mem : Bytes) : State :=
  ⟨⟨bs, data, none, 0xffffffff⟩, mem⟩

variable {data : Nat → Word} {fresh : Nat → Byte} {mem : Bytes} {number : Word}
variable {Q : Unit → State → Prop}

/-- The state in which a block is looked for. -/
def begun (bs : Word) (data : Nat → Word) (mem : Bytes) (fresh : Nat → Byte) (number : Word) :
    State :=
  ⟨⟨bs, data, some fresh, number⟩, mem⟩

theorem wp_readBlock_null (h : number = 0xffffffff) :
    wp (readBlock content fresh number buffer) Q E (start bs data mem) ↔
      E .nullPointer (start bs data mem) := by
  have hcached : number = (start bs data mem).node.cacheNum := h
  unfold readBlock
  rw [wp_bind, wp_get, wp_ite, if_pos hcached]
  rfl

/-- The four ways to a block. -/
theorem wp_readBlock (hne : number ≠ 0xffffffff) :
    wp (readBlock content fresh number buffer) Q E (start bs data mem) ↔
      wp (if number < 12 then deliver content (data number.toNat * bs) buffer
        else if number - 12 < bs / 4 then do
          let offset ← readWord content (data 12 * bs + (number - 12) * 4)
          deliver content (offset * bs) buffer
        else if number - 12 - bs / 4 < bs / 4 * (bs / 4) then do
          let offset ← readWord content (data 13 * bs + (number - 12 - bs / 4) / (bs / 4) * 4)
          let offset ← readWord content (offset * bs + (number - 12 - bs / 4) % (bs / 4))
          deliver content (offset * bs) buffer
        else if bs / 4 * (bs / 4) = 0 then throw .divide
        else do
          let m := number - 12 - bs / 4 - bs / 4 * (bs / 4)
          let offset ← readWord content (data 14 * bs + m / (bs / 4 * (bs / 4)) * 4)
          let offset ← readWord content (offset * bs + m % (bs / 4 * (bs / 4)) / (bs / 4))
          let offset ← readWord content (offset * bs + m % (bs / 4))
          deliver content (offset * bs) buffer) Q E (begun bs data mem fresh number) := by
  have hcached : ¬number = (start bs data mem).node.cacheNum := hne
  unfold readBlock
  rw [wp_bind, wp_get, wp_ite, if_neg hcached, wp_bind, wp_set]
  rfl

end Steps

end OsKernel.Ext2
