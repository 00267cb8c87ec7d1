import OsKernel.Ext2.BlockMap
import OsKernel.Ide.Model

/-!
# The terms on which processes read

A cache is in order when it is empty or holds the block that it says it holds. A process
counts on three things while it does not run: caches that nobody fills stay in order, the
transfer that it is in the middle of is left alone, and so is the cache that it fills or
copies out of. It promises the same to each other process, and nobody promises anything after
a clash.

## The bytes of a file

What is delivered is measured against ext2 and not against the code. `fileByte` takes the
bytes from the blocks that ext2 assigns to the file (`Ext2.assigned`); `placeOf` is where
`Node::read_block` looks. The two differ for blocks behind two or three index blocks, since
the code does not scale the places there (`Ext2/BlockMap.lean`). `OnDisk` is what makes them
the same: the blocks of the file are on the image, and those behind two index blocks or more
are at places 0. So the condition is about the file, and a file that does not meet it is read
wrong by one process alone.

## Two kinds of runs

`terms p al` has a switch. With `al` false other processes are in the kernel as well, and a
result is up to a clash. With `al` true `p` is the only one, and there is no clash. The lemmas
are proved once, for both; most of them do not look at the switch.

A condition on the others (`rely`) has to be kept by every step of `p` (`guar`) and survive
every step of the others. The steps change the drive, or one cache; `SameCaches` and `Apart`
are these two kinds, with what each leaves in order. `Free`, `Fills`, `Filling` and `Copying`
are what is known of the world while `p` is in the middle of nothing, or of one thing.
-/

set_option autoImplicit false

namespace OsKernel.Ide

open Lib Prog Block

variable {P V : Type} (content : Nat → Byte)

/-! ## Files on the disk

Two functions give the place of a block: `placeOf` is where the code looks, and `assigned` what
ext2 means; `OnDisk` has the condition under which they agree. The bytes of a file are those of
the blocks that are assigned, and a file on the disk is a device in the sense of
`Block/ReadAll.lean`. -/

/-- The word that is read at an offset; behind the end of the drive the bytes of the offset stay. -/
def wordOn (offset : Word) : Word :=
  le32 (fun i => overlay (fun a => byteOf offset a.toNat) 0 ((Ext2.ide content).available offset 4)
    (fun i => content (offset.toNat + i)) (BitVec.ofNat 32 i)) 0

/-- Where `Node::read_block` finds a block on the disk. -/
def placeOf (f : File) (number : Word) : Option Word :=
  let bs := f.blockSize
  if number < 12 then some (f.data number.toNat * bs)
  else
    let number := number - 12
    let pc1 := bs / 4
    if number < pc1 then some (wordOn content (f.data 12 * bs + number * 4) * bs)
    else
      let number := number - pc1
      let pc2 := pc1 * pc1
      if number < pc2 then
        let offset := wordOn content (f.data 13 * bs + number / pc1 * 4)
        some (wordOn content (offset * bs + number % pc1) * bs)
      else
        let number := number - pc2
        if pc2 = 0 then none
        else
          let offset := wordOn content (f.data 14 * bs + number / pc2 * 4)
          let offset := wordOn content (offset * bs + number % pc2 / pc1)
          some (wordOn content (offset * bs + number % pc1) * bs)

/-- The bytes of a file: those of the blocks that ext2 assigns to it, one behind the other. -/
def fileByte (f : File) (x : Nat) : Byte :=
  content (Ext2.assigned content f.blockSize.toNat f.data (x / f.blockSize.toNat) *
    f.blockSize.toNat + x % f.blockSize.toNat)

/-- All blocks of a file are on the disk, and are among those that `read_block` finds: what it reads for
any other block is not the file's, whoever else reads. -/
structure OnDisk (f : File) : Prop where
  order : 10 ≤ f.order
  wellFormed : ∀ n, n * f.blockSize.toNat < f.size.toNat →
    Ext2.WellFormed content f.blockSize.toNat f.data n
  levels : ∀ n, n * f.blockSize.toNat < f.size.toNat → 12 + f.blockSize.toNat / 4 ≤ n → f.order ≤ 17
  places : ∀ n, n * f.blockSize.toNat < f.size.toNat →
    ∀ d ∈ (Ext2.path (f.blockSize.toNat / 4) n).2.tail, d = 0

section Places

variable {content} {f : File} {number bs w y offset : Word} {imageSize r : Nat}

/-- The index blocks followed from `w` on, each at the given place. -/
def follow (content : Nat → Byte) (bs : Word) : Word → List Word → Word
  | w, [] => w
  | w, y :: ys => follow content bs (wordOn content (w * bs + y)) ys

theorem placeOf_route {way : Nat × List Word} (h : Ext2.route f.blockSize number = some way) :
    placeOf content f number =
      some (follow content f.blockSize (f.data way.1) way.2 * f.blockSize) := by
  unfold Ext2.route at h
  unfold placeOf
  dsimp only at h ⊢
  split at h
  · rename_i h₁
    obtain rfl := Option.some.inj h
    rw [if_pos h₁]
    rfl
  rename_i h₁
  rw [if_neg h₁]
  split at h
  · rename_i h₂
    obtain rfl := Option.some.inj h
    rw [if_pos h₂]
    rfl
  rename_i h₂
  rw [if_neg h₂]
  split at h
  · rename_i h₃
    obtain rfl := Option.some.inj h
    rw [if_pos h₃]
    rfl
  rename_i h₃
  rw [if_neg h₃]
  split at h
  · cases h
  rename_i h₄
  obtain rfl := Option.some.inj h
  rw [if_neg h₄]
  rfl

/-- A word of a block of the image. -/
theorem wordOn_block (hw : (w.toNat + 1) * bs.toNat ≤ imageSize) (himage : imageSize < 2 ^ 32)
    (hr : y.toNat = r) (hin : r + 4 ≤ bs.toNat) :
    wordOn content (w * bs + y) = le32 content (w.toNat * bs.toNat + r) := by
  obtain ⟨hblock, hlt⟩ := Ext2.block_offset hw himage
  have hoff : (w * bs + y).toNat = w.toNat * bs.toNat + r := by
    rw [BitVec.toNat_add, hblock, hr]
    exact Nat.mod_eq_of_lt (by omega)
  have hsize : (Ext2.ide content).size.toNat = 2 ^ 32 - 1 := rfl
  have hfour : (4 : Word).toNat = 4 := rfl
  have havail : (Ext2.ide content).available (w * bs + y) 4 = 4 := by
    unfold Device.available
    omega
  have hbyte : ∀ i < 4, overlay (fun a => byteOf (w * bs + y) a.toNat) 0 4
      (fun i => content ((w * bs + y).toNat + i)) (BitVec.ofNat 32 i) =
        content (w.toNat * bs.toNat + r + i) := by
    intro i hi
    have hat := overlay_at (m := fun a => byteOf (w * bs + y) a.toNat) (a := 0#32)
      (f := fun i => content ((w * bs + y).toNat + i)) hi (by decide)
    rw [BitVec.zero_add] at hat
    rw [hoff] at hat ⊢
    exact hat
  unfold wordOn
  rw [havail]
  unfold le32
  dsimp only
  rw [hbyte 3 (by decide), hbyte 2 (by decide), hbyte 1 (by decide), hbyte 0 (by decide)]
  rfl

/-- Entries 0 are read where they are. -/
theorem follow_zero (himage : imageSize < 2 ^ 32) (hbs : 4 ≤ bs.toNat) :
    ∀ {js : List Nat} {ys : List Word} {w : Word}, ys.map BitVec.toNat = js → (∀ d ∈ js, d = 0) →
      Ext2.OnImage content bs.toNat imageSize w.toNat js →
      (follow content bs w ys).toNat = Ext2.walk content bs.toNat w.toNat js ∧
        ((follow content bs w ys).toNat + 1) * bs.toNat ≤ imageSize := by
  intro js
  induction js with
  | nil =>
    intro ys w hys _ hon
    obtain rfl := List.map_eq_nil_iff.mp hys
    exact ⟨rfl, hon.2⟩
  | cons j js ih =>
    intro ys w hys hzero hon
    obtain ⟨y, ys', rfl, hy, hys'⟩ := List.map_eq_cons_iff.mp hys
    have hj : j = 0 := hzero j List.mem_cons_self
    unfold follow
    rw [wordOn_block hon.1.2 himage hy (by omega)]
    have hentry : (le32 content (w.toNat * bs.toNat + j)).toNat =
        Ext2.entry content bs.toNat w.toNat j := by
      unfold Ext2.entry
      rw [hj]
    obtain ⟨-, hon⟩ := hon
    rw [← hentry] at hon
    unfold Ext2.walk
    rw [← hentry]
    exact ih hys' (fun d hd => hzero d (List.mem_cons_of_mem _ hd)) hon

/-- Where the code looks for a block of such a file is where ext2 has it. -/
theorem OnDisk.placed (h : OnDisk content f) (hin : number.toNat * f.blockSize.toNat < f.size.toNat) :
    ∃ x, placeOf content f number = some x ∧
      x.toNat = Ext2.assigned content f.blockSize.toNat f.data number.toNat * f.blockSize.toNat ∧
      x.toNat + f.blockSize.toNat ≤ 2 ^ 32 - 1 := by
  have horder := h.order
  have horder' := f.order_le
  have z : Ext2.Sizes f.blockSize (f.order - 10) := by
    refine ⟨by omega, ?_⟩
    rw [f.blockSize_eq, show (1024 : Nat) = 2 ^ 10 from rfl, ← Nat.pow_add]
    congr 1
    omega
  have hlimit : number.toNat < 12 + 256 * 2 ^ (f.order - 10) + (256 * 2 ^ (f.order - 10)) ^ 2 +
      (256 * 2 ^ (f.order - 10)) ^ 3 := by
    have hbig : 256 ≤ 256 * 2 ^ (f.order - 10) := Nat.le_mul_of_pos_right _ (Nat.two_pow_pos _)
    have hcube : 256 ^ 3 ≤ (256 * 2 ^ (f.order - 10)) ^ 3 := Nat.pow_le_pow_left hbig 3
    have hsize := f.size.isLt
    have hbs : 1024 ≤ f.blockSize.toNat := by
      rw [z.size]
      exact Nat.le_mul_of_pos_right _ (Nat.two_pow_pos _)
    have hmany : number.toNat * 1024 ≤ number.toNat * f.blockSize.toNat := Nat.mul_le_mul_left _ hbs
    omega
  -- where the slip has no effect, the way through the index blocks is that of ext2
  obtain ⟨ys, hys, hroute⟩ := z.route hlimit fun hlarge => by
    have := h.levels number.toNat hin (by rw [z.quarter.2]; exact hlarge)
    omega
  obtain ⟨imageSize, himage, hon⟩ := h.wellFormed number.toNat hin
  have hzero := h.places number.toNat hin
  have hfound : (follow content f.blockSize
        (f.data (Ext2.path (256 * 2 ^ (f.order - 10)) number.toNat).1) ys).toNat =
        Ext2.assigned content f.blockSize.toNat f.data number.toNat ∧
      ((follow content f.blockSize
        (f.data (Ext2.path (256 * 2 ^ (f.order - 10)) number.toNat).1) ys).toNat + 1) *
          f.blockSize.toNat ≤ imageSize := by
    have hbs := z.size
    have hpos : 0 < 2 ^ (f.order - 10) := Nat.two_pow_pos _
    unfold Ext2.assigned
    rw [z.quarter.2] at hon hzero ⊢
    generalize Ext2.path (256 * 2 ^ (f.order - 10)) number.toNat = way at hys hzero hon ⊢
    obtain ⟨root, js⟩ := way
    cases js with
    | nil =>
      obtain rfl : ys = [] := hys
      exact ⟨rfl, hon.2⟩
    | cons j js =>
      obtain ⟨y, ys', rfl, hy, hys', hlt⟩ := hys
      have hj : j < 256 * 2 ^ (f.order - 10) := hlt j List.mem_cons_self
      unfold follow
      rw [wordOn_block hon.1.2 himage hy (by omega)]
      exact follow_zero himage (by omega) hys' hzero hon.2
  obtain ⟨hassigned, hend⟩ := hfound
  obtain ⟨hblock, hlt⟩ := Ext2.block_offset hend himage
  refine ⟨_, placeOf_route hroute, ?_, ?_⟩
  · rw [hblock, hassigned]
  · rw [hblock]
    omega

end Places

/-- A file as a device. -/
def File.device (f : File) : Device where
  order := f.order
  blockSize := f.blockSize
  blockSize_eq := f.blockSize_eq
  size := f.size
  content := fileByte content f

/-- A block of a file, as a cache holds it. -/
def HoldsBlock (f : File) (number : Word) (cache : Bytes) : Prop :=
  ∀ i < f.blockSize.toNat,
    cache (BitVec.ofNat 32 i) = fileByte content f (number.toNat * f.blockSize.toNat + i)

/-! ## The terms -/

variable (files : V → File)

/-- A cache in order. -/
structure Valid (w : World P V) (v : V) : Prop where
  tagged : w.has v = true → HoldsBlock content (files v) (w.num v) (w.cache v)
  empty : w.has v = false → w.num v = 0xffffffff

/-- Every cache that nobody is filling is in order. -/
def Ordered (w : World P V) : Prop := ∀ v, w.filler v = none → Valid content files w v

/-- A cache is as it was. -/
structure SameCache (v : V) (w w' : World P V) : Prop where
  cache : w'.cache v = w.cache v
  has : w'.has v = w.has v
  num : w'.num v = w.num v

/-- What `p` is in the middle of is left alone, and nothing is done in its name. -/
structure Spares (p : P) (w w' : World P V) : Prop where
  ordered : Ordered content files w → Ordered content files w'
  owner : w.owner = some p → w'.owner = some p ∧ w'.drive = w.drive
  notOwner : w'.owner = some p → w.owner = some p
  filler : ∀ v, w.filler v = some p →
    w'.filler v = some p ∧ SameCache v w w' ∧ w'.readers v ⊆ w.readers v
  notFiller : ∀ v, w'.filler v = some p → w.filler v = some p
  reader : ∀ v, p ∈ w.readers v → p ∈ w'.readers v ∧ SameCache v w w'
  notReader : ∀ v, p ∈ w'.readers v → p ∈ w.readers v

variable {content files} {w w' w'' : World P V} {p q : P} {v : V}

theorem SameCache.refl (v : V) (w : World P V) : SameCache v w w := ⟨rfl, rfl, rfl⟩

theorem SameCache.trans (h : SameCache v w w') (h' : SameCache v w' w'') : SameCache v w w'' :=
  ⟨h'.cache.trans h.cache, h'.has.trans h.has, h'.num.trans h.num⟩

/-- A cache that stays as it is stays in order. -/
theorem SameCache.valid (h : SameCache v w w') (hw : Valid content files w v) :
    Valid content files w' v := by
  constructor
  · rw [h.has, h.num, h.cache]
    exact hw.tagged
  · rw [h.has, h.num]
    exact hw.empty

theorem Spares.refl (q : P) (w : World P V) : Spares content files q w w where
  ordered := id
  owner h := ⟨h, rfl⟩
  notOwner := id
  filler v h := ⟨h, SameCache.refl v w, Finset.Subset.refl _⟩
  notFiller _ := id
  reader v h := ⟨h, SameCache.refl v w⟩
  notReader _ := id

theorem Spares.trans (h : Spares content files q w w') (h' : Spares content files q w' w'') :
    Spares content files q w w'' where
  ordered := h'.ordered ∘ h.ordered
  owner := by
    intro ho
    obtain ⟨ho₁, hd₁⟩ := h.owner ho
    obtain ⟨ho₂, hd₂⟩ := h'.owner ho₁
    exact ⟨ho₂, hd₂.trans hd₁⟩
  notOwner := h.notOwner ∘ h'.notOwner
  filler := by
    intro v hv
    obtain ⟨hf₁, hs₁, hr₁⟩ := h.filler v hv
    obtain ⟨hf₂, hs₂, hr₂⟩ := h'.filler v hf₁
    exact ⟨hf₂, hs₁.trans hs₂, hr₂.trans hr₁⟩
  notFiller := fun v => h.notFiller v ∘ h'.notFiller v
  reader := by
    intro v hv
    obtain ⟨hr₁, hs₁⟩ := h.reader v hv
    obtain ⟨hr₂, hs₂⟩ := h'.reader v hr₁
    exact ⟨hr₂, hs₁.trans hs₂⟩
  notReader := fun v => h.notReader v ∘ h'.notReader v

variable (content files)

/-- On these terms `p` reads; `al` says that no other process is in the kernel. Then there is no
clash, and otherwise a clash ends them. -/
def terms (p : P) (al : Prop) : Task.Terms (World P V) where
  rely w w' := Spares content files p w w' ∧ (al → w' = w)
  guar w w' := (∀ q ≠ p, Spares content files q w w') ∧ (al → w.clash = false → w'.clash = false)
  bad w := ¬al ∧ w.clash = true
  rely_refl w := ⟨Spares.refl p w, fun _ => rfl⟩
  rely_trans h h' := ⟨h.1.trans h'.1, fun hal => (h'.2 hal).trans (h.2 hal)⟩

/-- The errors of the drive itself. -/
def DriveFails (e : Stop) : Prop := e = .driveError ∨ e = .notReady

/-- The rest of a task on the terms of `p`. -/
abbrev Reads [DecidableEq P] [DecidableEq V] (p : P) (al : Prop) {α : Type}
    (Post : α → World P V → Prop) (x : Thread V α) (w : World P V) : Prop :=
  Task.Runs (handle content p) (terms content files p al) Post DriveFails x w

variable {content files}

/-! ## Steps that others do not notice -/

/-- The two worlds differ in the drive only. -/
structure SameCaches (w w' : World P V) : Prop where
  cache : w'.cache = w.cache
  has : w'.has = w.has
  num : w'.num = w.num
  filler : w'.filler = w.filler
  readers : w'.readers = w.readers

theorem SameCaches.same (h : SameCaches w w') (v : V) : SameCache v w w' :=
  ⟨congrFun h.cache v, congrFun h.has v, congrFun h.num v⟩

theorem SameCaches.ordered (h : SameCaches w w') (hw : Ordered content files w) :
    Ordered content files w' := by
  intro v hv
  rw [h.filler] at hv
  exact (h.same v).valid (hw v hv)

/-- A step in a transfer, for a process that is in the middle of none. -/
theorem SameCaches.spares (h : SameCaches w w') (howner : w.owner ≠ some q)
    (howner' : w'.owner ≠ some q) : Spares content files q w w' where
  ordered := h.ordered
  owner ho := absurd ho howner
  notOwner ho := absurd ho howner'
  filler := by
    intro v hv
    rw [h.filler, h.readers]
    exact ⟨hv, h.same v, Finset.Subset.refl _⟩
  notFiller := by
    intro v hv
    rwa [h.filler] at hv
  reader := by
    intro v hv
    rw [h.readers]
    exact ⟨hv, h.same v⟩
  notReader := by
    intro v hv
    rwa [h.readers] at hv

/-- The two worlds differ in one cache only. -/
structure Apart (v : V) (w w' : World P V) : Prop where
  drive : w'.drive = w.drive
  owner : w'.owner = w.owner
  same : ∀ u ≠ v, SameCache u w w'
  filler : ∀ u ≠ v, w'.filler u = w.filler u
  readers : ∀ u ≠ v, w'.readers u = w.readers u

/-- A step in one cache, which leaves it in order. -/
theorem Apart.ordered (h : Apart v w w')
    (hv : Ordered content files w → w'.filler v = none → Valid content files w' v)
    (hw : Ordered content files w) : Ordered content files w' := by
  intro u hu
  by_cases hne : u = v
  · subst hne
    exact hv hw hu
  · rw [h.filler u hne] at hu
    exact (h.same u hne).valid (hw u hu)

/-- A step in one cache, for a process that has no part in it, or copies out of it while it stays. -/
theorem Apart.spares (h : Apart v w w')
    (hv : Ordered content files w → w'.filler v = none → Valid content files w' v)
    (hfiller : w.filler v = some q →
      w'.filler v = some q ∧ SameCache v w w' ∧ w'.readers v ⊆ w.readers v)
    (hnotFiller : w'.filler v = some q → w.filler v = some q)
    (hreader : q ∈ w.readers v → q ∈ w'.readers v ∧ SameCache v w w')
    (hnotReader : q ∈ w'.readers v → q ∈ w.readers v) : Spares content files q w w' where
  ordered := h.ordered hv
  owner := by
    intro ho
    rw [h.owner]
    exact ⟨ho, h.drive⟩
  notOwner := by
    intro ho
    rwa [h.owner] at ho
  filler := by
    intro u hu
    by_cases hne : u = v
    · subst hne
      exact hfiller hu
    · rw [h.filler u hne, h.readers u hne]
      exact ⟨hu, h.same u hne, Finset.Subset.refl _⟩
  notFiller := by
    intro u hu
    by_cases hne : u = v
    · subst hne
      exact hnotFiller hu
    · rwa [h.filler u hne] at hu
  reader := by
    intro u hu
    by_cases hne : u = v
    · subst hne
      exact hreader hu
    · rw [h.readers u hne]
      exact ⟨hu, h.same u hne⟩
  notReader := by
    intro u hu
    by_cases hne : u = v
    · subst hne
      exact hnotReader hu
    · rwa [h.readers u hne] at hu

/-! ## What a process is in the middle of

A process relies on the others to respect what it is doing. There are four things that it may be
doing: nothing, a transfer, filling a cache, and copying out of one; each has an assertion, and a
lemma that says that steps of others keep it (`stable`), as long as nobody comes in anybody's way.
-/

variable {al : Prop}

/-- No transfer of `p` is going on. -/
structure NoTransfer (p : P) (al : Prop) (w : World P V) : Prop where
  owner : w.owner ≠ some p
  alone : al → w.owner = none

/-- The drive is in the hands of `p`. -/
structure Transfers (p : P) (d : Drive) (w : World P V) : Prop where
  owner : w.owner = some p
  drive : w.drive = d

theorem Transfers.stable {d : Drive} (h : Transfers p d w)
    (hr : (terms content files p al).rely w w') : Transfers p d w' := by
  obtain ⟨ho, hd⟩ := hr.1.owner h.owner
  exact ⟨ho, hd.trans h.drive⟩

/-- One process has the drive. -/
theorem Transfers.other {d : Drive} (h : Transfers p d w) (hq : q ≠ p) : w.owner ≠ some q := by
  rw [h.owner]
  intro he
  exact hq (Option.some.inj he).symm

variable (content files)

/-- All that `p` does with the caches is to fill this one, if any. -/
structure Fills (p : P) (al : Prop) (own : Option V) (w : World P V) : Prop where
  ordered : Ordered content files w
  filler : ∀ v, w.filler v = some p ↔ own = some v
  reader : ∀ v, p ∉ w.readers v
  unread : ∀ v, own = some v → w.readers v = ∅
  alone : al → ∀ v, (own ≠ some v → w.filler v = none) ∧ w.readers v = ∅

/-- A process in the middle of nothing. -/
structure Free (p : P) (al : Prop) (w : World P V) : Prop where
  caches : Fills content files p al none w
  transfer : NoTransfer p al w

variable {content files} {own : Option V}

theorem NoTransfer.stable (h : NoTransfer p al w) (hr : (terms content files p al).rely w w') :
    NoTransfer p al w' where
  owner ho := h.owner (hr.1.notOwner ho)
  alone hal := by
    rw [hr.2 hal]
    exact h.alone hal

theorem Fills.stable (h : Fills content files p al own w)
    (hr : (terms content files p al).rely w w') : Fills content files p al own w' where
  ordered := hr.1.ordered h.ordered
  filler v := by
    rw [← h.filler v]
    exact ⟨hr.1.notFiller v, fun hv => (hr.1.filler v hv).1⟩
  reader v hv := h.reader v (hr.1.notReader v hv)
  unread v hv := by
    obtain ⟨-, -, hsub⟩ := hr.1.filler v ((h.filler v).mpr hv)
    rw [h.unread v hv] at hsub
    exact Finset.subset_empty.mp hsub
  alone hal := by
    rw [hr.2 hal]
    exact h.alone hal

theorem Fills.same (h : Fills content files p al own w) (hs : SameCaches w w') :
    Fills content files p al own w' where
  ordered := hs.ordered h.ordered
  filler := by
    rw [hs.filler]
    exact h.filler
  reader := by
    rw [hs.readers]
    exact h.reader
  unread := by
    rw [hs.readers]
    exact h.unread
  alone := by
    rw [hs.filler, hs.readers]
    exact h.alone

theorem Free.stable (h : Free content files p al w)
    (hr : (terms content files p al).rely w w') : Free content files p al w' :=
  ⟨h.caches.stable hr, h.transfer.stable hr⟩

/-- Where nobody else is in the kernel, a process that is in the middle of nothing may as well be any
other. -/
theorem Free.alone (hal : al) (h : Free content files p al w) (q : P) :
    Free content files q al w where
  caches := by
    have hnone := h.caches.alone hal
    refine ⟨h.caches.ordered, fun v => ?_, fun v => ?_, fun v _ => (hnone v).2,
      fun _ v => ⟨fun _ => ?_, (hnone v).2⟩⟩
    · rw [(hnone v).1 (by simp)]
      simp
    · rw [(hnone v).2]
      simp
    · exact (hnone v).1 (by simp)
  transfer := by
    have hnone := h.transfer.alone hal
    refine ⟨?_, fun _ => hnone⟩
    rw [hnone]
    simp

/-- What is known of the caches, whatever the drive does. -/
structure Stable (content : Nat → Byte) (files : V → File) (p : P) (al : Prop)
    (C : World P V → Prop) : Prop where
  rely : ∀ {w w'}, C w → (terms content files p al).rely w w' → C w'
  same : ∀ {w w'}, C w → SameCaches w w' → C w'

/-- `p` fills the cache of `v` with this block, and these are the bytes in it so far. -/
structure Filling (content : Nat → Byte) (files : V → File) (p : P) (al : Prop) (v : V)
    (number : Word) (m : Bytes) (w : World P V) : Prop where
  caches : Fills content files p al (some v) w
  has : w.has v = true
  num : w.num v = number
  cache : w.cache v = m

/-- `p` copies these bytes out of the cache of `v`. -/
structure Copying (content : Nat → Byte) (files : V → File) (p : P) (al : Prop) (v : V)
    (m : Bytes) (w : World P V) : Prop where
  ordered : Ordered content files w
  transfer : NoTransfer p al w
  filler : ∀ u, w.filler u ≠ some p
  reader : ∀ u, p ∈ w.readers u ↔ u = v
  cache : w.cache v = m
  alone : al → ∀ u, w.filler u = none ∧ w.readers u ⊆ {p}

variable {number : Word} {m : Bytes}

theorem Fills.filling (h : Fills content files p al (some v) w) : w.filler v = some p :=
  (h.filler v).mpr rfl

theorem Filling.stable (v : V) (number : Word) (m : Bytes) :
    Stable content files p al (Filling content files p al v number m) where
  rely h hr := by
    obtain ⟨-, hs, -⟩ := hr.1.filler v h.caches.filling
    exact ⟨h.caches.stable hr, hs.has.trans h.has, hs.num.trans h.num, hs.cache.trans h.cache⟩
  same h hs := ⟨h.caches.same hs, (hs.same v).has.trans h.has, (hs.same v).num.trans h.num,
    (hs.same v).cache.trans h.cache⟩

theorem Copying.stable {m : Bytes} (h : Copying content files p al v m w)
    (hr : (terms content files p al).rely w w') : Copying content files p al v m w' where
  ordered := hr.1.ordered h.ordered
  transfer := h.transfer.stable hr
  filler u hu := h.filler u (hr.1.notFiller u hu)
  reader u := by
    rw [← h.reader u]
    exact ⟨hr.1.notReader u, fun hu => (hr.1.reader u hu).1⟩
  cache := (hr.1.reader v ((h.reader v).mpr rfl)).2.cache.trans h.cache
  alone hal := by
    rw [hr.2 hal]
    exact h.alone hal

/-- Who comes in nobody's way found nobody filling the cache. -/
theorem Free.unfilled (h : Free content files p al w)
    (hb : al ∨ (w.filler v).isSome = false) : w.filler v = none := by
  rcases hb with hal | hb
  · exact ((h.caches.alone hal) v).1 (by simp)
  · exact Option.isNone_iff_eq_none.mp (by simpa using hb)

/-- Others have no part in a cache that `p` fills. -/
theorem Fills.spares (h : Fills content files p al (some v) w) (ha : Apart v w w') (hq : q ≠ p)
    (hord : Ordered content files w → w'.filler v = none → Valid content files w' v)
    (hfiller : w'.filler v = some p ∨ w'.filler v = none) (hreaders : w'.readers v ⊆ w.readers v) :
    Spares content files q w w' := by
  have hread := h.unread v rfl
  refine ha.spares hord ?_ ?_ ?_ fun hin => hreaders hin
  · intro he
    rw [h.filling] at he
    exact absurd (Option.some.inj he).symm hq
  · intro he
    rcases hfiller with hp | hnone
    · rw [hp] at he
      exact absurd (Option.some.inj he).symm hq
    · rw [hnone] at he
      cases he
  · intro hin
    rw [hread] at hin
    cases hin

/-- The filler goes on filling. -/
theorem Fills.goesOn (h : Fills content files p al (some v) w) (ha : Apart v w w')
    (hfiller : w'.filler v = w.filler v) (hreaders : w'.readers v = w.readers v) :
    Fills content files p al (some v) w' := by
  have hfillers : w'.filler = w.filler := by
    funext u
    by_cases hu : u = v
    · rw [hu, hfiller]
    · exact ha.filler u hu
  have hread : w'.readers = w.readers := by
    funext u
    by_cases hu : u = v
    · rw [hu, hreaders]
    · exact ha.readers u hu
  refine ⟨ha.ordered ?_ h.ordered, ?_, ?_, ?_, ?_⟩
  · intro _ hv
    rw [hfiller, h.filling] at hv
    cases hv
  · rw [hfillers]
    exact h.filler
  · rw [hread]
    exact h.reader
  · rw [hread]
    exact h.unread
  · rw [hfillers, hread]
    exact h.alone

end OsKernel.Ide
