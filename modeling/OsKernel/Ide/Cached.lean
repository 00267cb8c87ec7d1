import OsKernel.Ide.Reads

/-!
# Files read through their caches

What `Node::read_block` finds and leaves in the cache of its node, and the bytes that the
`read` of a descriptor delivers. A clash is the only way to find a cache that somebody is
filling.

There are two ways through the function. If the cache has the block, the process is a reader
until it has copied it, and others may be readers with it. If not, it writes the number into
the node before it fetches the block: from there until the bytes are in, the node says that it
holds a block which it does not hold. `Filling` is that state with the bytes so far, and no
other process can look at the cache then without a clash.

The memory for the cache is made once and kept, and the number of a new node is one that no
block has (0xffffffff). A read of that block would find it there, which is why it is excluded
(`reads_look`); a file with blocks of 1 KB or more is too short for it.
-/

set_option autoImplicit false

namespace OsKernel.Ide

open Lib Prog Block

variable {P V : Type} [DecidableEq V]

/-! ## What one step does to a cache -/

section Steps

variable (w : World P V) (p : P) (v : V)

@[simp] theorem has_make (number : Word) : (w.make v number).has v = true := Function.update_self ..

@[simp] theorem num_make (number : Word) : (w.make v number).num v = number :=
  Function.update_self ..

@[simp] theorem cache_put (pos : Word) (src : Nat → Byte) (n : Nat) :
    (w.put v pos src n).cache v = overlay (w.cache v) pos n src := Function.update_self ..

theorem apart_make (number : Word) : Apart v w (w.make v number) :=
  ⟨rfl, rfl, fun _ hu => ⟨rfl, Function.update_of_ne hu .., Function.update_of_ne hu ..⟩,
    fun _ _ => rfl, fun _ _ => rfl⟩

theorem apart_put (pos : Word) (src : Nat → Byte) (n : Nat) : Apart v w (w.put v pos src n) :=
  ⟨rfl, rfl, fun _ hu => ⟨Function.update_of_ne hu .., rfl, rfl⟩, fun _ _ => rfl, fun _ _ => rfl⟩

variable [DecidableEq P]

@[simp] theorem readers_hit : (w.hit p v).readers v = insert p (w.readers v) :=
  Function.update_self ..

@[simp] theorem filler_miss : (w.miss p v).filler v = some p := Function.update_self ..

@[simp] theorem filler_leave :
    (w.leave p v).filler v = if w.filler v = some p then none else w.filler v :=
  Function.update_self ..

@[simp] theorem readers_leave : (w.leave p v).readers v = (w.readers v).erase p :=
  Function.update_self ..

theorem apart_hit : Apart v w (w.hit p v) :=
  ⟨rfl, rfl, fun _ _ => ⟨rfl, rfl, rfl⟩, fun _ _ => rfl, fun _ hu => Function.update_of_ne hu ..⟩

theorem apart_miss : Apart v w (w.miss p v) :=
  ⟨rfl, rfl, fun _ _ => ⟨rfl, rfl, rfl⟩, fun _ hu => Function.update_of_ne hu .., fun _ _ => rfl⟩

theorem apart_leave : Apart v w (w.leave p v) :=
  ⟨rfl, rfl, fun _ _ => ⟨rfl, rfl, rfl⟩, fun _ hu => Function.update_of_ne hu ..,
    fun _ hu => Function.update_of_ne hu ..⟩

end Steps

variable [DecidableEq P] {content : Nat → Byte} {files : V → File} {w w' : World P V} {p q : P}
variable {al : Prop} {v : V} {number : Word} {m : Bytes}

/-! ## Looking at a cache -/

/-- What the comparison with `cache_num` tells. -/
def Looked (content : Nat → Byte) (files : V → File) (p : P) (al : Prop) (v : V) (number : Word) :
    Look → World P V → Prop
  | .hit, w => ∃ m, HoldsBlock content (files v) number m ∧ Copying content files p al v m w
  | .null, _ => False
  | .miss, w => Fills content files p al (some v) w ∧ NoTransfer p al w

/-- A hit: the cache is read, and others may read it too. -/
theorem looked_hit (h : Free content files p al w) (hnum : number = w.num v)
    (hne : number ≠ 0xffffffff) (hb : ¬(terms content files p al).bad (w.hit p v)) :
    (terms content files p al).guar w (w.hit p v) ∧
      Looked content files p al v number (if w.has v then .hit else .null) (w.hit p v) := by
  have hnone : w.filler v = none := by
    apply h.unfilled
    by_contra hno
    rw [not_or] at hno
    exact hb ⟨hno.1, by simp [World.hit, hno.2]⟩
  have hvalid := h.caches.ordered v hnone
  have hhas : w.has v = true := by
    by_contra hno
    exact hne (hnum.trans (hvalid.empty (Bool.eq_false_iff.mpr hno)))
  have hapart := apart_hit w p v
  have hsame : SameCache v w (w.hit p v) := ⟨rfl, rfl, rfl⟩
  have hord : Ordered content files w → (w.hit p v).filler v = none →
      Valid content files (w.hit p v) v := fun hw hv => hsame.valid (hw v hv)
  refine ⟨⟨fun q hq => ?_, fun _ hc => ?_⟩, ?_⟩
  · refine hapart.spares hord ?_ id ?_ ?_
    · intro hq
      rw [hnone] at hq
      cases hq
    · intro hq
      rw [readers_hit]
      exact ⟨Finset.mem_insert_of_mem hq, hsame⟩
    · intro hin
      rw [readers_hit] at hin
      exact (Finset.mem_insert.mp hin).resolve_left hq
  · simp [World.hit, hc, hnone]
  · rw [if_pos hhas]
    refine ⟨w.cache v, ?_, hapart.ordered hord h.caches.ordered, ?_, ?_, ?_, rfl, ?_⟩
    · rw [hnum]
      exact hvalid.tagged hhas
    · exact ⟨h.transfer.owner, h.transfer.alone⟩
    · intro u hu
      have hown := (h.caches.filler u).mp hu
      cases hown
    · intro u
      by_cases hu : u = v
      · subst hu
        simp
      · rw [hapart.readers u hu]
        exact ⟨fun hin => absurd hin (h.caches.reader u), fun he => absurd he hu⟩
    · intro hal u
      obtain ⟨hfree, hread⟩ := h.caches.alone hal u
      refine ⟨hfree (by simp), ?_⟩
      by_cases hu : u = v
      · subst hu
        simp [hread]
      · rw [hapart.readers u hu, hread]
        exact Finset.empty_subset _

/-- A miss: nobody else is at the cache. -/
theorem looked_miss (h : Free content files p al w)
    (hb : ¬(terms content files p al).bad (w.miss p v)) :
    (terms content files p al).guar w (w.miss p v) ∧
      Looked content files p al v number .miss (w.miss p v) := by
  have hnone : w.filler v = none := by
    apply h.unfilled
    by_contra hno
    rw [not_or] at hno
    exact hb ⟨hno.1, by simp [World.miss, hno.2]⟩
  have hread : w.readers v = ∅ := by
    by_cases hal : al
    · exact ((h.caches.alone hal) v).2
    · by_contra hsome
      exact hb ⟨hal, by simp [World.miss, hsome]⟩
  have hapart := apart_miss w p v
  have hord : Ordered content files w → (w.miss p v).filler v = none →
      Valid content files (w.miss p v) v := by
    intro _ hv
    rw [filler_miss] at hv
    cases hv
  refine ⟨⟨fun q hq => ?_, fun _ hc => ?_⟩, ⟨?_, ?_, ?_, ?_, ?_⟩, ?_⟩
  · refine hapart.spares hord ?_ ?_ ?_ id
    · intro hq
      rw [hnone] at hq
      cases hq
    · intro he
      rw [filler_miss] at he
      exact absurd (Option.some.inj he).symm hq
    · intro hin
      rw [hread] at hin
      cases hin
  · simp [World.miss, hc, hnone, hread]
  · exact hapart.ordered hord h.caches.ordered
  · intro u
    by_cases hu : u = v
    · subst hu
      simp
    · rw [hapart.filler u hu, h.caches.filler u]
      simp [Ne.symm hu]
  · exact h.caches.reader
  · intro u hu
    cases hu
    exact hread
  · intro hal u
    obtain ⟨hfree, hread⟩ := h.caches.alone hal u
    refine ⟨fun hne => ?_, hread⟩
    have hu : u ≠ v := fun he => hne (congrArg some he.symm)
    rw [hapart.filler u hu]
    exact hfree (by simp)
  · exact ⟨h.transfer.owner, h.transfer.alone⟩

/-- `number == cache_num`. -/
theorem reads_look (h : Free content files p al w) (hne : number ≠ 0xffffffff) :
    Reads content files p al (Looked content files p al v number) (ask (.look v number)) w := by
  refine Task.Runs.request (K := Free content files p al) h Free.stable fun w h i r hr hb => ?_
  simp only [handle] at hr
  split at hr
  · rename_i hnum
    cases hr
    exact looked_hit h hnum hne hb
  · cases hr
    exact looked_miss h hb

/-! ## Filling it -/

/-- The cache is made ready for the block. -/
theorem reads_make (h : Fills content files p al (some v) w) (hn : NoTransfer p al w) :
    Reads content files p al (fun _ w => ∃ m, Filling content files p al v number m w ∧
      NoTransfer p al w) (ask (.make v number)) w := by
  refine Task.Runs.request
    (K := fun w => Fills content files p al (some v) w ∧ NoTransfer p al w) ⟨h, hn⟩
    (fun h hr => ⟨h.1.stable hr, h.2.stable hr⟩) fun w h i r hr _ => ?_
  obtain ⟨h, hn⟩ := h
  cases hr
  have ha := apart_make w v number
  refine ⟨⟨fun q hq => ?_, fun _ => id⟩, w.cache v, ⟨h.goesOn ha rfl rfl, ?_, ?_, rfl⟩, ?_⟩
  · apply h.spares ha hq
    · intro _ hv
      have hfill : w.filler v = none := hv
      rw [h.filling] at hfill
      cases hfill
    · exact Or.inl h.filling
    · exact Finset.Subset.refl _
  · exact has_make w v number
  · exact num_make w v number
  · exact ⟨hn.owner, hn.alone⟩

/-- Bytes go into it. -/
theorem reads_put {pos : Word} {src : Nat → Byte} {n : Nat}
    (h : Filling content files p al v number m w ∧ NoTransfer p al w) :
    Reads content files p al (fun _ w =>
      Filling content files p al v number (overlay m pos n src) w ∧ NoTransfer p al w)
      (ask (.put v pos src n)) w := by
  refine Task.Runs.request
    (K := fun w => Filling content files p al v number m w ∧ NoTransfer p al w) h
    (fun h hr => ⟨(Filling.stable v number m).rely h.1 hr, h.2.stable hr⟩) fun w h i r hr _ => ?_
  obtain ⟨h, hn⟩ := h
  cases hr
  have ha := apart_put w v pos src n
  refine ⟨⟨fun q hq => ?_, fun _ => id⟩, ⟨h.caches.goesOn ha rfl rfl, h.has, h.num, ?_⟩, ?_⟩
  · apply h.caches.spares ha hq
    · intro _ hv
      have hfill : w.filler v = none := hv
      rw [h.caches.filling] at hfill
      cases hfill
    · exact Or.inl h.caches.filling
    · exact Finset.Subset.refl _
  · show (w.put v pos src n).cache v = _
    rw [cache_put, h.cache]
  · exact ⟨hn.owner, hn.alone⟩

/-! ## Copying out of it

Between the look at the number of a cache and the copy out of it other processes run, and may copy
from it too. As long as nobody begins to fill it the bytes stay, and that is all that `Copying`
needs. -/

/-- A full cache is copied, and is in order from then on. -/
theorem reads_filled (h : Filling content files p al v number m w) (hn : NoTransfer p al w)
    (hm : HoldsBlock content (files v) number m) : Reads content files p al
      (fun r w => r = m ∧ Free content files p al w) (ask (.take v)) w := by
  refine Task.Runs.request
    (K := fun w => Filling content files p al v number m w ∧ NoTransfer p al w) ⟨h, hn⟩
    (fun h hr => ⟨(Filling.stable v number m).rely h.1 hr, h.2.stable hr⟩) fun w h i r hr _ => ?_
  obtain ⟨h, hn⟩ := h
  cases hr
  have ha := apart_leave w p v
  have hnone : (w.leave p v).filler v = none := by
    rw [filler_leave, if_pos h.caches.filling]
  -- with the block in it, the cache has what its tag says
  have hvalid : Valid content files (w.leave p v) v := by
    refine ⟨fun _ => ?_, fun hno => ?_⟩
    · show HoldsBlock content (files v) (w.num v) (w.cache v)
      rw [h.num, h.cache]
      exact hm
    · have hhas : w.has v = false := hno
      rw [h.has] at hhas
      cases hhas
  refine ⟨⟨fun q hq => ?_, fun _ => id⟩, h.cache, ⟨?_, ?_, ?_, ?_, ?_⟩, ?_⟩
  · apply h.caches.spares ha hq (fun _ _ => hvalid) (Or.inr hnone)
    rw [readers_leave]
    exact Finset.erase_subset ..
  · exact ha.ordered (fun _ _ => hvalid) h.caches.ordered
  · intro u
    by_cases hu : u = v
    · rw [hu]
      show (w.leave p v).filler v = some p ↔ _
      rw [hnone]
      simp
    · show (w.leave p v).filler u = some p ↔ _
      rw [ha.filler u hu, h.caches.filler u]
      simp [Ne.symm hu]
  · intro u hin
    by_cases hu : u = v
    · subst hu
      have hin' : p ∈ (w.leave p u).readers u := hin
      simp at hin'
    · have hin' : p ∈ (w.leave p v).readers u := hin
      rw [ha.readers u hu] at hin'
      exact h.caches.reader u hin'
  · intro u hu
    cases hu
  · intro hal u
    by_cases hu : u = v
    · subst hu
      refine ⟨fun _ => hnone, ?_⟩
      show (w.leave p u).readers u = ∅
      simp [h.caches.unread u rfl]
    · obtain ⟨hfree, hread⟩ := h.caches.alone hal u
      refine ⟨fun _ => ?_, ?_⟩
      · show (w.leave p v).filler u = none
        rw [ha.filler u hu]
        exact hfree fun he => hu (Option.some.inj he).symm
      · show (w.leave p v).readers u = ∅
        rw [ha.readers u hu, hread]
  · exact ⟨hn.owner, hn.alone⟩

/-- A cache that is read is copied, and stays as it is. -/
theorem reads_copied (h : Copying content files p al v m w) : Reads content files p al
    (fun r w => r = m ∧ Free content files p al w) (ask (.take v)) w := by
  refine Task.Runs.request (K := Copying content files p al v m) h Copying.stable
    fun w h i r hr _ => ?_
  cases hr
  have ha := apart_leave w p v
  have hfiller : (w.leave p v).filler v = w.filler v := by
    rw [filler_leave, if_neg (h.filler v)]
  have hfillers : (w.leave p v).filler = w.filler := by
    funext u
    by_cases hu : u = v
    · rw [hu, hfiller]
    · exact ha.filler u hu
  have hsame : SameCache v w (w.leave p v) := ⟨rfl, rfl, rfl⟩
  have hord : Ordered content files w → (w.leave p v).filler v = none →
      Valid content files (w.leave p v) v := by
    intro hw hv
    rw [hfiller] at hv
    exact hsame.valid (hw v hv)
  have hread : ∀ u, p ∉ (w.leave p v).readers u := by
    intro u hin
    by_cases hu : u = v
    · subst hu
      simp at hin
    · rw [ha.readers u hu] at hin
      exact hu ((h.reader u).mp hin)
  have hless : ∀ u, (w.leave p v).readers u ⊆ w.readers u := by
    intro u
    by_cases hu : u = v
    · subst hu
      rw [readers_leave]
      exact Finset.erase_subset ..
    · rw [ha.readers u hu]
  refine ⟨⟨fun q hq => ?_, fun _ => id⟩, h.cache, ⟨?_, ?_, hread, ?_, ?_⟩, ?_⟩
  · refine ha.spares hord ?_ ?_ ?_ ?_
    · intro hf
      rw [hfiller, readers_leave]
      exact ⟨hf, hsame, Finset.erase_subset ..⟩
    · intro hf
      rwa [hfiller] at hf
    · intro hin
      rw [readers_leave]
      exact ⟨Finset.mem_erase.mpr ⟨hq, hin⟩, hsame⟩
    · intro hin
      rw [readers_leave] at hin
      exact Finset.mem_of_mem_erase hin
  · exact ha.ordered hord h.ordered
  · intro u
    show (w.leave p v).filler u = some p ↔ _
    rw [hfillers]
    exact ⟨fun hf => absurd hf (h.filler u), fun he => by cases he⟩
  · intro u hu
    cases hu
  · intro hal u
    obtain ⟨hnone, hsub⟩ := h.alone hal u
    refine ⟨fun _ => ?_, ?_⟩
    · show (w.leave p v).filler u = none
      rw [hfillers]
      exact hnone
    · show (w.leave p v).readers u = ∅
      -- only `p` read it
      by_contra hne
      obtain ⟨x, hx⟩ := Finset.nonempty_iff_ne_empty.mpr hne
      have hxp : x = p := Finset.mem_singleton.mp (hsub (hless u hx))
      rw [hxp] at hx
      exact hread u hx
  · exact ⟨h.transfer.owner, h.transfer.alone⟩

/-! ## A block, and a read -/

omit [DecidableEq P] [DecidableEq V] in
/-- The bytes of a block. -/
theorem fileByte_block {f : File} {n i : Nat} (hi : i < f.blockSize.toNat) :
    fileByte content f (n * f.blockSize.toNat + i) = content
      (Ext2.assigned content f.blockSize.toNat f.data n * f.blockSize.toNat + i) := by
  have hpos : 0 < f.blockSize.toNat := Nat.lt_of_le_of_lt (Nat.zero_le i) hi
  have hdiv : (n * f.blockSize.toNat + i) / f.blockSize.toNat = n := by
    rw [Nat.mul_comm, Nat.mul_add_div hpos, Nat.div_eq_of_lt hi, Nat.add_zero]
  have hmod : (n * f.blockSize.toNat + i) % f.blockSize.toNat = i := by
    rw [Nat.mul_comm, Nat.mul_add_mod, Nat.mod_eq_of_lt hi]
  unfold fileByte
  rw [hdiv, hmod]

omit [DecidableEq P] [DecidableEq V] in
/-- A block that was read from where it is. -/
theorem holdsBlock_read {f : File} {number x : Word}
    (h : x.toNat = Ext2.assigned content f.blockSize.toNat f.data number.toNat * f.blockSize.toNat)
    (hx : x.toNat + f.blockSize.toNat ≤ 2 ^ 32 - 1) : HoldsBlock content f number
      (overlay m 0 ((Ext2.ide content).available x f.blockSize) fun i => content (x.toNat + i)) := by
  intro i hi
  have hsize : (Ext2.ide content).size.toNat = 2 ^ 32 - 1 := rfl
  have havail : (Ext2.ide content).available x f.blockSize = f.blockSize.toNat := by
    unfold Device.available
    omega
  rw [fileByte_block hi, ← h, havail]
  have hat := overlay_at (m := m) (a := 0#32) (f := fun i => content (x.toNat + i)) hi
    (Nat.le_of_lt f.blockSize.isLt)
  rwa [BitVec.zero_add] at hat

/-- `Node::read_block`. -/
theorem reads_block (ch : Byte) (hdisk : OnDisk content (files v))
    (hin : number.toNat * (files v).blockSize.toNat < (files v).size.toNat)
    (h : Free content files p al w) : Reads content files p al
      (fun block w => (∀ i < (files v).blockSize.toNat,
        block i = fileByte content (files v) (number.toNat * (files v).blockSize.toNat + i)) ∧
        Free content files p al w) (nodeReadBlock ch (files v) v number) w := by
  obtain ⟨x, hplace, hassigned, hx⟩ := hdisk.placed hin
  have hne : number ≠ 0xffffffff := by
    intro he
    have hpos : 0 < (files v).blockSize.toNat := by
      rw [(files v).blockSize_eq]
      exact Nat.two_pow_pos _
    have hsize := (files v).size.isLt
    have hmany := Nat.le_mul_of_pos_right number.toNat hpos
    have hnum : number.toNat = 2 ^ 32 - 1 := congrArg BitVec.toNat he
    omega
  unfold nodeReadBlock
  apply Task.Runs.bind (reads_look h hne)
  intro a w ha
  cases a with
  | null => exact ha.elim
  | hit =>
    obtain ⟨m, hm, hcopy⟩ := ha
    apply Task.Runs.bind (reads_copied hcopy)
    intro cache w hc
    refine ⟨fun i hi => ?_, hc.2⟩
    rw [hc.1]
    exact hm i hi
  | miss =>
    apply Task.Runs.bind (reads_make ha.1 ha.2)
    intro _ w hw
    obtain ⟨m, hfill, hn⟩ := hw
    have hstable := fun m => @Filling.stable P V content files p al v number m
    apply Task.Runs.bind (reads_find (hstable m) ch hplace hfill hn)
    intro offset w hw
    rw [hw.1]
    apply Task.Runs.bind (reads_ide
      (R := fun m (_ : Unit) w => Filling content files p al v number m w) (fun m _ => hstable m)
      reads_put ch x _ hw.2.1 hw.2.2)
    intro _ w hw
    have hm := holdsBlock_read (m := m) hassigned hx
    apply Task.Runs.bind (reads_filled hw.1 hw.2 hm)
    intro cache w hc
    refine ⟨fun i hi => ?_, hc.2⟩
    rw [hc.1]
    exact hm i hi

/-- What a `read` leaves: the bytes of its file, or -1 behind its end. -/
def Delivers (content : Nat → Byte) (files : V → File) (c : Call V) (r : Result) : Prop :=
  if (files c.node).size < c.offset then r = (-1, c.mem)
  else
    r.1 = BitVec.ofNat 32 ((files c.node).device content |>.available c.offset c.len) ∧
    r.2 = overlay c.mem c.buffer ((files c.node).device content |>.available c.offset c.len)
      fun i => fileByte content (files c.node) (c.offset.toNat + i)

/-- `FileDescriptor::read`. -/
theorem reads_call (ch : Byte) {c : Call V} (hdisk : OnDisk content (files c.node))
    (h : Free content files p al w) : Reads content files p al
      (fun r w => Delivers content files c r ∧ Free content files p al w) (c.task ch files) w := by
  unfold Call.task fdRead Delivers
  by_cases hoff : (files c.node).size < c.offset
  · rw [if_pos hoff]
    simp only [if_pos hoff]
    exact ⟨rfl, h⟩
  rw [if_neg hoff]
  simp only [if_neg hoff]
  apply Task.Runs.bind (reads_all (d := (files c.node).device content)
    (R := fun m b w => b = m ∧ Free content files p al w) ?_ ?_ c.offset c.len c.buffer ⟨rfl, h⟩)
  · intro r w hr
    refine ⟨⟨?_, hr.2.1⟩, hr.2.2⟩
    show r.1.setWidth 32 = _
    rw [hr.1 hoff, narrow]
  · intro number m b w hw hin
    apply Task.Runs.mono (reads_block ch hdisk hin hw.2)
    exact fun block w hb => ⟨hb.1, hw.1, hb.2⟩
  · intro pos src n m b w hw
    exact ⟨congrArg (fun b => overlay b pos n src) hw.1, hw.2⟩

end OsKernel.Ide
