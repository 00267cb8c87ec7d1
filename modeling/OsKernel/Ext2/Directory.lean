import OsKernel.Lib.Records
import OsKernel.Ext2.BlockMap

/-!
# Directories

`Node::entry_count`, `Ext2::find` and the directory scan of `Ext2::open`, of `ext2.cc`. A
directory is blocks of records; `read_block` is taken to deliver them (`Ext2/BlockMap.lean`
says when it does). An access behind the block that was just read stops the run with
`.overrun`, where the machine would go on.

The three loops are alike: over the blocks, over the records of one, over the bytes of a name.
They differ in what ends them and in what they count down, so each is the same frame with a
turn of its own (`countEntry`, `findEntry`, `openEntry`), in the order of loads of the source.
The loop over records is that of `Lib/Records.lean`.

A name is compared from the first byte on, up to the first that differs, and its record may
reach out of the block behind that byte without being looked at. `searched` says which bytes
of a record are looked at, for a given path; it is what decides whether a scan stays inside.

Inodes come from a table (`Volume.inode`) and not from the disk; where they are there is the
subject of `Ext2/Mount.lean`. `getInode` asserts that the group exists, and which numbers it
is asked for is noted.
-/

set_option autoImplicit false

namespace OsKernel.Ext2

open Lib Prog

/-! ## The code

The reads of a record go through `look`, which stops the scan if they leave the block: in the
source nothing does, and the bytes behind the buffer are whatever is in the heap. Everything that
a scan reads of a record is so marked, in the order of the source, because a scan that ends early
is one that has not read the rest. -/

namespace Dir

/-- Why a scan did not return. -/
inductive Stop
  /-- a failed `ASSERT` -/
  | assertion
  /-- an access behind the block -/
  | overrun
  /-- the loop has not ended yet -/
  | fuel
  deriving DecidableEq

/-- What `getInode` makes of an inode, and what its blocks are. -/
structure Inode where
  mode : BitVec 16
  /-- `size_in_bytes()` -/
  size : Word
  /-- what `read_block` delivers -/
  block : Word → Nat → Byte
  /-- what `get_symbol` delivers -/
  symbol : Nat → Byte

def Inode.type (n : Inode) : BitVec 16 := n.mode >>> 12

def Inode.isDir (n : Inode) : Bool := n.type = 4

def Inode.isSymlink (n : Inode) : Bool := n.type = 10

/-- A mounted `Ext2`. -/
structure Volume where
  blockSize : Word
  power : blockSize.toNat ∣ 2 ^ 32
  /-- `inode_count_per_group` -/
  perGroup : Word
  /-- `block_group_count` -/
  groups : Word
  inode : Word → Inode

/-- Blocks of 1 KB. -/
theorem power_1024 : (1024 : Word).toNat ∣ 2 ^ 32 := by decide

structure State where
  /-- `entries` of the node -/
  entries : Word
  /-- the inodes that `getInode` was asked for, the latest first -/
  asked : List Word

abbrev Scan := Prog Stop State

variable (v : Volume)

/-- `Ext2::getInode`; a node is known by its number. -/
def getInode (inode : Word) : Scan Word := do
  modify fun s => { s with asked := inode :: s.asked }
  let blockGroup := (inode - 1) / v.perGroup
  if blockGroup < v.groups then pure inode else throw .assertion

/-- `n` bytes at offset `o` of the block. -/
def look {α : Type} (o n : Nat) (x : α) : Scan α :=
  if o + n ≤ v.blockSize.toNat then pure x else throw .overrun

variable (buffer : Nat → Byte)

/-- `entry->inode` -/
def entryInode (e : Nat) : Scan Word := look v e 4 (le32 buffer e)

/-- `entry->rec_len`, to be subtracted from `togo` -/
def entryRecLen (e : Nat) : Scan Word := look v (e + 4) 2 ((le16 buffer (e + 4)).setWidth 32)

/-- `entry->name_len` -/
def entryNameLen (e : Nat) : Scan Nat := look v (e + 6) 2 (le16 buffer (e + 6)).toNat

/-- A turn of the inner loop of `entry_count`. -/
def countEntry (e : Nat) : Scan (Option Unit) := do
  let inode ← entryInode v buffer e
  if inode ≠ 0 then modify fun s => { s with entries := s.entries + 1 }
  pure none

/-- The loop over `lhs` and the path, `n` bytes from `i` on: whether it gets to its end. -/
def sameName (path : Nat → Byte) (e : Nat) : Nat → Nat → Scan Bool
  | 0, _ => pure true
  | n + 1, i => do
    let c ← look v (e + 8 + i) 1 (buffer (e + 8 + i))
    if c ≠ path i then pure false else sameName path e n (i + 1)

/-- What a scan finds: the path ends with a name, or goes on behind it. -/
inductive Hit
  | file (node : Word)
  | dir (node : Word) (rest : Nat)
  deriving DecidableEq

/-- A turn of the inner loop of `Ext2::find`. -/
def findEntry (path : Nat → Byte) (e : Nat) : Scan (Option Hit) := do
  let n ← entryNameLen v buffer e
  if ← sameName v buffer path e n 0 then
    let node ← getInode v (← entryInode v buffer e)
    if path n = 0 then pure (some (.file node))
    else if path n = 47 then pure (some (.dir node (n + 1)))
    else pure none
  else pure none

/-- A turn of the inner loop of `Ext2::open`. -/
def openEntry (path : Nat → Byte) (e : Nat) : Scan (Option Hit) := do
  let n ← entryNameLen v buffer e
  if ← sameName v buffer path e n 0 then
    if path n = 0 then
      let node ← getInode v (← entryInode v buffer e)
      pure (some (.file node))
    else if path n = 47 then
      let node ← getInode v (← entryInode v buffer e)
      pure (some (.dir node (n + 1)))
    else pure none
  else pure none

/-- `while (togo > 0)`, over the records of a block. -/
def records {α : Type} (turn : Nat → Scan (Option α)) (fuel : Nat) : Scan (Option α) :=
  Records.loop .fuel turn (entryRecLen v buffer) fuel v.blockSize 0

/-- `for (i = 0; total_togo > 0; i++, total_togo -= block_size)`, over the blocks. -/
def countdownBlocks {α : Type} (block : Word → Scan (Option α)) :
    Nat → Word → Word → Scan (Option α)
  | 0, _, _ => throw .fuel
  | fuel + 1, i, totalTogo =>
    if 0 < totalTogo then do
      match ← block i with
      | some a => pure (some a)
      | none => countdownBlocks block fuel (i + 1) (totalTogo - v.blockSize)
    else pure none

/-- `for (b = 0; b < size / block_size; b++)`, with `n` blocks to go. -/
def countBlocks {α : Type} (block : Word → Scan (Option α)) : Nat → Word → Scan (Option α)
  | 0, _ => pure none
  | n + 1, b => do
    match ← block b with
    | some a => pure (some a)
    | none => countBlocks block n (b + 1)

/-- `Node::entry_count` -/
def entryCount (n : Inode) (fuel : Nat) : Scan Word := do
  let s ← get
  if s.entries = 0 then
    let _ ← countdownBlocks v (fun i => records v (n.block i) (countEntry v (n.block i)) fuel)
      fuel 0 n.size
  let s ← get
  pure s.entries

/-- The scan of `Ext2::find`. -/
def findScan (n : Inode) (path : Nat → Byte) (fuel : Nat) : Scan (Option Hit) :=
  countdownBlocks v (fun i => records v (n.block i) (findEntry v (n.block i) path) fuel) fuel 0 n.size

/-- The scan of `Ext2::open`. -/
def openScan (n : Inode) (path : Nat → Byte) (fuel : Nat) : Scan (Option Hit) :=
  countBlocks (fun b => records v (n.block b) (openEntry v (n.block b) path) fuel)
    (n.size / v.blockSize).toNat 0

/-! ## What is in a block

How each scan looks at a record, in the terms of `Lib/Records.lean`: what it reads before it goes
on, and when it stops. The condition on the bytes of a block is then the same for all three, with
these as parameters. -/

section Block

variable {v} {buffer} {path : Nat → Byte} {e i n : Nat} {s : State}

/-- A scan that ended, if only in a failed `ASSERT`. -/
def Bad (l : Stop) : Prop := l ≠ .assertion

/-- The number of bytes that the name has. -/
def nameLen (buffer : Nat → Byte) (e : Nat) : Nat := (le16 buffer (e + 6)).toNat

/-- The name is what the path goes on with. -/
def Same (buffer path : Nat → Byte) (e : Nat) : Prop :=
  ∀ j < nameLen buffer e, buffer (e + 8 + j) = path j

/-- The name is a component of the path. -/
def Named (buffer path : Nat → Byte) (e : Nat) : Prop :=
  Same buffer path e ∧ (path (nameLen buffer e) = 0 ∨ path (nameLen buffer e) = 47)

/-- There is such an inode. -/
def Valid (v : Volume) (inode : Word) : Prop := (inode - 1) / v.perGroup < v.groups

/-- The records as `entry_count` looks at them. -/
def counted (v : Volume) (buffer : Nat → Byte) : Records.Block where
  size := v.blockSize.toNat
  inside e := e + 6 ≤ v.blockSize.toNat
  stops _ := False
  len e := (le16 buffer (e + 4)).toNat
  inside_lt e h := by omega

/-- The records as a search looks at them: the name up to the first byte that is another one. -/
def searched (v : Volume) (buffer path : Nat → Byte) (stops : Nat → Prop) : Records.Block where
  size := v.blockSize.toNat
  inside e := e + 8 ≤ v.blockSize.toNat ∧ ∀ j < nameLen buffer e,
    (∀ i < j, buffer (e + 8 + i) = path i) → e + 8 + j < v.blockSize.toNat
  stops := stops
  len e := (le16 buffer (e + 4)).toNat
  inside_lt e h := by omega

/-- The records as `find` looks at them. -/
def found (v : Volume) (buffer path : Nat → Byte) : Records.Block :=
  searched v buffer path fun e => Same buffer path e ∧ (path (nameLen buffer e) = 0 ∨
    path (nameLen buffer e) = 47 ∨ ¬Valid v (le32 buffer e))

/-- The records as `open` looks at them. -/
def opened (v : Volume) (buffer path : Nat → Byte) : Records.Block :=
  searched v buffer path (Named buffer path)

theorem wp_look {α : Type} {o n : Nat} {x : α} {Q : α → State → Prop} {E : Stop → State → Prop}
    (hin : o + n ≤ v.blockSize.toNat → Q x s) (hout : v.blockSize.toNat < o + n → E .overrun s) :
    wp (look v o n x) Q E s := by
  unfold look
  rw [wp_ite]
  split
  · rename_i h
    exact hin h
  · rename_i h
    exact hout (Nat.not_le.mp h)

theorem wp_getInode {inode : Word} {Q : Word → State → Prop} {E : Stop → State → Prop}
    (hok : Valid v inode → Q inode { s with asked := inode :: s.asked })
    (hno : ¬Valid v inode → E .assertion { s with asked := inode :: s.asked }) :
    wp (getInode v inode) Q E s := by
  unfold getInode
  rw [wp_bind, wp_modify, wp_ite]
  split
  · rename_i h
    exact hok h
  · rename_i h
    exact hno h

/-- The loop over the name, from byte `i` on. -/
theorem wp_sameName : ∀ {n i : Nat},
    wp (sameName v buffer path e n i)
      (fun r s' => s' = s ∧ (r = true ↔ ∀ j, i ≤ j → j < i + n → buffer (e + 8 + j) = path j) ∧
        ∀ j, i ≤ j → j < i + n → (∀ k, i ≤ k → k < j → buffer (e + 8 + k) = path k) →
          e + 8 + j < v.blockSize.toNat)
      (fun l _ => l = .overrun ∧ ∃ j, i ≤ j ∧ j < i + n ∧
        (∀ k, i ≤ k → k < j → buffer (e + 8 + k) = path k) ∧ v.blockSize.toNat ≤ e + 8 + j) s := by
  intro n
  induction n with
  | zero =>
    intro i
    exact ⟨rfl, ⟨fun _ j hj hj' => by omega, fun _ => rfl⟩, fun j hj hj' => by omega⟩
  | succ n ih =>
    intro i
    unfold sameName
    rw [wp_bind]
    refine wp_look (fun hin => ?_) fun hout => ?_
    · rw [wp_ite]
      split
      · rename_i hne
        refine ⟨rfl, ⟨nofun, fun h => absurd (h i (Nat.le_refl i) (by omega)) hne⟩,
          fun j hj hj' h => ?_⟩
        rcases Nat.lt_or_eq_of_le hj with hlt | rfl
        · exact absurd (h i (Nat.le_refl i) hlt) hne
        · omega
      · rename_i heq
        have heq : buffer (e + 8 + i) = path i := not_not.mp heq
        have hfrom : ∀ {P : Nat → Prop}, P i → ((∀ j, i + 1 ≤ j → j < i + 1 + n → P j) ↔
            ∀ j, i ≤ j → j < i + (n + 1) → P j) := by
          intro P hP
          refine ⟨fun h j hj hj' => ?_, fun h j hj hj' => h j (by omega) (by omega)⟩
          rcases Nat.lt_or_eq_of_le hj with hlt | rfl
          · exact h j hlt (by omega)
          · exact hP
        refine wp_mono ih (fun r s' h => ?_) fun l _ h => ?_
        · obtain ⟨rfl, hr, hseen⟩ := h
          refine ⟨rfl, hr.trans (hfrom heq), (hfrom fun _ => by omega).mp fun j hj hj' h => ?_⟩
          exact hseen j hj hj' fun k hk hk' => h k (by omega) hk'
        · obtain ⟨rfl, j, hj, hj', hsame, hout⟩ := h
          refine ⟨rfl, j, by omega, by omega, fun k hk hk' => ?_, hout⟩
          rcases Nat.lt_or_eq_of_le hk with hlt | rfl
          · exact hsame k hlt hk'
          · exact heq
    · exact ⟨rfl, i, Nat.le_refl i, by omega, fun k hk hk' => by omega, by omega⟩

/-- What comes before the branches of a turn: a name that is compared as far as it is the same. -/
theorem wp_compared {stops : Nat → Prop} {α : Type} {hit : Nat → Scan (Option α)}
    (hstops : ∀ e, stops e → Same buffer path e)
    (hhit : ∀ s, e + 8 ≤ v.blockSize.toNat → Same buffer path e →
      wp (hit (nameLen buffer e)) (fun r _ => r ≠ none ↔ stops e)
        (fun l _ => stops e ∧ ¬Bad l) s) :
    ((searched v buffer path stops).inside e →
      wp (do
        let n ← entryNameLen v buffer e
        if ← sameName v buffer path e n 0 then hit n else pure none)
        (fun r _ => r ≠ none ↔ stops e) (fun l _ => stops e ∧ ¬Bad l) s) ∧
    (¬(searched v buffer path stops).inside e →
      wp (do
        let n ← entryNameLen v buffer e
        if ← sameName v buffer path e n 0 then hit n else pure none)
        (fun _ _ => False) (fun l _ => Bad l) s) := by
  have hname : wp (sameName v buffer path e (nameLen buffer e) 0)
      (fun r s' => s' = s ∧ (r = true ↔ Same buffer path e) ∧ ∀ j < nameLen buffer e,
        (∀ i < j, buffer (e + 8 + i) = path i) → e + 8 + j < v.blockSize.toNat)
      (fun l _ => l = .overrun ∧ ¬∀ j < nameLen buffer e,
        (∀ i < j, buffer (e + 8 + i) = path i) → e + 8 + j < v.blockSize.toNat) s := by
    refine wp_mono wp_sameName (fun r s' h => ?_) fun l _ h => ?_
    · obtain ⟨rfl, hr, hseen⟩ := h
      simp only [Nat.zero_add, Nat.zero_le, true_implies] at hr hseen
      exact ⟨rfl, hr, hseen⟩
    · obtain ⟨rfl, j, -, hj, hsame, hout⟩ := h
      rw [Nat.zero_add] at hj
      refine ⟨rfl, fun h => ?_⟩
      exact absurd (h j hj fun i hi => hsame i (Nat.zero_le i) hi) (Nat.not_lt.mpr hout)
  constructor
  · rintro ⟨hheader, hbytes⟩
    rw [wp_bind]
    refine wp_look (fun _ => ?_) fun hout => absurd hheader (by omega)
    rw [wp_bind]
    refine wp_mono hname (fun r s' h => ?_) fun l _ h => absurd hbytes h.2
    obtain ⟨rfl, hr, -⟩ := h
    rw [wp_ite]
    split
    · rename_i h
      exact hhit _ hheader (hr.mp h)
    · rename_i h
      exact ⟨fun h => absurd rfl h, fun hs => absurd (hr.mpr (hstops e hs)) h⟩
  · intro hno
    rw [wp_bind]
    refine wp_look (fun hheader => ?_) fun _ => nofun
    rw [wp_bind]
    refine wp_mono hname (fun r s' h => ?_) fun l _ h => ?_
    · exact absurd ⟨by omega, h.2.2⟩ hno
    · rw [h.1]
      nofun

/-- The length of a record that has its header in the block. -/
theorem wp_entryRecLen (h : e + 6 ≤ v.blockSize.toNat) :
    wp (entryRecLen v buffer e) (fun n _ => n.toNat = (le16 buffer (e + 4)).toNat)
      (fun _ _ => False) s := by
  refine wp_look (fun _ => ?_) fun hout => absurd h (by omega)
  rw [BitVec.toNat_setWidth]
  exact Nat.mod_eq_of_lt (Nat.lt_trans (le16 buffer (e + 4)).isLt (by decide))

theorem reads_counted :
    Records.Reads (counted v buffer) Bad (countEntry v buffer) (entryRecLen v buffer) where
  inside e s h := by
    have hin : e + 6 ≤ v.blockSize.toNat := h
    unfold countEntry
    rw [wp_bind]
    refine wp_look (fun _ => ?_) fun hout => absurd hin (by omega)
    simp only [wp_ite, wp_bind, wp_modify, wp_pure]
    split <;> exact ⟨fun h => absurd rfl h, fun h => h.elim⟩
  outside e s h := by
    have hno : v.blockSize.toNat < e + 4 + 2 := Nat.not_le.mp h
    have hlen : ∀ s, wp (entryRecLen v buffer e) (fun _ _ => False) (fun l _ => Bad l) s :=
      fun s => wp_look (fun hin => absurd hin (Nat.not_le.mpr hno)) fun _ h => by cases h
    unfold countEntry
    rw [wp_bind]
    refine wp_look (fun _ => ?_) fun _ h => by cases h
    simp only [wp_ite, wp_bind, wp_modify, wp_pure]
    split <;> exact ⟨trivial, hlen _⟩
  len e s h := wp_entryRecLen h

/-- A search, of which `hit` is the end. -/
theorem reads_searched {stops : Nat → Prop} {hit : Nat → Nat → Scan (Option Hit)}
    (hstops : ∀ e, stops e → Same buffer path e)
    (hhit : ∀ e s, e + 8 ≤ v.blockSize.toNat → Same buffer path e →
      wp (hit e (nameLen buffer e)) (fun r _ => r ≠ none ↔ stops e)
        (fun l _ => stops e ∧ ¬Bad l) s) :
    Records.Reads (searched v buffer path stops) Bad
      (fun e => do
        let n ← entryNameLen v buffer e
        if ← sameName v buffer path e n 0 then hit e n else pure none)
      (entryRecLen v buffer) where
  inside e s h := (wp_compared hstops (hhit e)).1 h
  outside e s h := wp_mono ((wp_compared hstops (hhit e)).2 h) (fun _ _ h => h.elim) fun _ _ h => h
  len e s h := wp_entryRecLen (Nat.le_trans (Nat.add_le_add_left (by decide) e) h.1)

theorem wp_entryInode {Q : Word → State → Prop} {E : Stop → State → Prop}
    (h : e + 8 ≤ v.blockSize.toNat) (hq : Q (le32 buffer e) s) :
    wp (entryInode v buffer e) Q E s :=
  wp_look (fun _ => hq) fun hout => absurd h (by omega)

theorem reads_opened :
    Records.Reads (opened v buffer path) Bad (openEntry v buffer path) (entryRecLen v buffer) := by
  refine reads_searched (fun e h => h.1) fun e s hin hsame => ?_
  rw [wp_ite]
  split
  · rename_i h0
    rw [wp_bind]
    refine wp_entryInode hin ?_
    rw [wp_bind]
    exact wp_getInode (fun _ => ⟨fun _ => ⟨hsame, .inl h0⟩, fun _ => nofun⟩)
      fun _ => ⟨⟨hsame, .inl h0⟩, fun h => h rfl⟩
  rw [wp_ite]
  split
  · rename_i h47
    rw [wp_bind]
    refine wp_entryInode hin ?_
    rw [wp_bind]
    exact wp_getInode (fun _ => ⟨fun _ => ⟨hsame, .inr h47⟩, fun _ => nofun⟩)
      fun _ => ⟨⟨hsame, .inr h47⟩, fun h => h rfl⟩
  · rename_i h0 h47
    exact ⟨fun h => absurd rfl h, fun h => h.2.elim (fun h => absurd h h0) fun h => absurd h h47⟩

theorem reads_found :
    Records.Reads (found v buffer path) Bad (findEntry v buffer path) (entryRecLen v buffer) := by
  refine reads_searched (fun e h => h.1) fun e s hin hsame => ?_
  rw [wp_bind]
  refine wp_entryInode hin ?_
  rw [wp_bind]
  refine wp_getInode (fun hvalid => ?_) fun hno => ⟨⟨hsame, .inr (.inr hno)⟩, fun h => h rfl⟩
  rw [wp_ite]
  split
  · rename_i h0
    exact ⟨fun _ => ⟨hsame, .inl h0⟩, fun _ => nofun⟩
  rw [wp_ite]
  split
  · rename_i h47
    exact ⟨fun _ => ⟨hsame, .inr (.inl h47)⟩, fun _ => nofun⟩
  · rename_i h0 h47
    refine ⟨fun h => absurd rfl h, fun h => ?_⟩
    rcases h.2 with h | h | h
    · exact absurd h h0
    · exact absurd h h47
    · exact absurd hvalid h

end Block

end Dir

end OsKernel.Ext2
