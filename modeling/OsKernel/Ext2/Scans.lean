import OsKernel.Ext2.Directory

/-!
# Which scans end

A scan of a directory ends, and looks at nothing behind a block, where the records from the
beginning of each block on are inside it, have a length and fill it, up to one that ends the
search.

It is an equivalence, for any bytes on the disk. A record of length 0 keeps the loop where it
is, and one that is too long takes the count of bytes left below zero, where it wraps; in both
cases the loop does not come to its end. `Lib/Records.lean` has this for one block, and the
work here is in going from block to block: `entry_count` and `find` count the bytes of the
directory down, and `open` counts blocks up, so a directory whose size is no multiple of the
block size is well for one and not for the other two.

A failed `ASSERT` counts as an end. The process stops there with a message, and nothing has
been looked at behind the block.
-/

set_option autoImplicit false

namespace OsKernel.Ext2

open Lib Prog

namespace Dir

section Block

variable {v : Volume} {buffer path : Nat → Byte} {e : Nat} {s : State}

/-! ## From block to block

The three scans go from block to block in two ways: `entry_count` and `find` count the bytes that
are left down, in unsigned words, and `open` counts whole blocks. `Scans` is what any of them does
with one block, and the lemmas are about the loop around it. A size that is no multiple of the
block size makes the count wrap around; `Walked` is the condition that is left then. -/

/-- The scan ends, if it is let run long enough. -/
def Ends {α : Type} (x : Nat → Scan α) (s : State) : Prop :=
  ∃ fuel, wp (x fuel) (fun _ _ => True) (fun l _ => ¬Bad l) s

/-- What a scan does with block `b`, which is sound for it, or else ends badly in it. -/
structure Scans {α : Type} (block : Nat → Word → Scan (Option α)) (bs : Nat)
    (B : Word → Records.Block) : Prop where
  sound : ∀ fuel b s, Records.Sound (B b) 0 →
    wp (block fuel b) (fun r _ => r = none ↔ Records.Passed (B b) 0)
      (fun l _ => (Bad l ∧ fuel ≤ bs) ∨ (¬Bad l ∧ ¬Records.Passed (B b) 0)) s
  ends : ∀ fuel b s, wp (block fuel b) (fun _ _ => True) (fun l _ => ¬Bad l) s →
    Records.Sound (B b) 0

theorem scans {α : Type} {turn : Word → Nat → Scan (Option α)} {buffer : Word → Nat → Byte}
    {B : Word → Records.Block} (hsize : ∀ b, (B b).size = v.blockSize.toNat)
    (R : ∀ b, Records.Reads (B b) Bad (turn b) (entryRecLen v (buffer b))) :
    Scans (fun fuel b => records v (buffer b) (turn b) fuel) v.blockSize.toNat B := by
  have hlt := v.blockSize.isLt
  have hfuel : Bad .fuel := nofun
  have htogo : ∀ b, BitVec.ofNat 32 ((B b).size - 0) = v.blockSize := by
    intro b
    rw [hsize, Nat.sub_zero, BitVec.ofNat_toNat, BitVec.setWidth_eq]
  refine ⟨fun fuel b s h => ?_, fun fuel b s h => ?_⟩
  · have hw := @Records.Sound.wp_loop Stop State α (B b) 0 .fuel _ _ fuel s _ h (R b)
      (by rw [hsize]; exact hlt) hfuel
    rw [htogo, hsize] at hw
    exact hw
  · have hw : wp (Records.loop Stop.fuel (turn b) (entryRecLen v (buffer b)) fuel
        (BitVec.ofNat 32 ((B b).size - 0)) 0) (fun _ _ => True) (fun l _ => ¬Bad l) s := by
      rw [htogo]
      exact h
    exact Records.sound_of_loop (R b) (by rw [hsize]; exact hlt) hfuel (Nat.zero_le _) hw

variable {α : Type} {block : Nat → Word → Scan (Option α)} {bs : Nat} {B : Word → Records.Block}
variable {fuel : Nat}

/-- One block of a scan that ends: it is sound, and the rest of the scan ends if there is one. -/
theorem Scans.block_ends (S : Scans block bs B) {b : Word} {rest : Scan (Option α)}
    (h : wp (do
      match ← block fuel b with
      | some a => pure (some a)
      | none => rest) (fun _ _ => True) (fun l _ => ¬Bad l) s) :
    Records.Sound (B b) 0 ∧ (Records.Passed (B b) 0 →
      ∃ s', wp rest (fun _ _ => True) (fun l _ => ¬Bad l) s') := by
  rw [wp_bind] at h
  have hsound := S.ends fuel b s (wp_mono h (fun _ _ _ => trivial) fun _ _ h => h)
  refine ⟨hsound, fun hpassed => ?_⟩
  obtain ⟨r, s', -, hr, hrest⟩ := wp_returns (wp_mono (wp_and (S.sound fuel b s hsound) h)
    (fun _ _ h => h) fun _ _ h => h.1.elim (fun h' => h.2 h'.1) fun h' => h'.2 hpassed)
  obtain rfl := hr.mpr hpassed
  exact ⟨s', hrest⟩

/-- A block that is sound, with enough time. -/
theorem Scans.wp_block (S : Scans block bs B) {b : Word} {rest : Scan (Option α)}
    (hfuel : bs < fuel) (hsound : Records.Sound (B b) 0)
    (hrest : Records.Passed (B b) 0 → ∀ s', wp rest (fun _ _ => True) (fun l _ => ¬Bad l) s') :
    wp (do
      match ← block fuel b with
      | some a => pure (some a)
      | none => rest) (fun _ _ => True) (fun l _ => ¬Bad l) s := by
  rw [wp_bind]
  refine wp_mono (S.sound fuel b s hsound) (fun r s' h => ?_) fun l _ h => ?_
  · cases r with
    | some a => trivial
    | none => exact hrest (h.mp rfl) s'
  · rcases h with ⟨-, hle⟩ | ⟨hok, -⟩
    · exact absurd hfuel (Nat.not_lt.mpr hle)
    · exact hok

theorem add_one_ofNat (b : Word) (i : Nat) :
    b + 1 + BitVec.ofNat 32 i = b + BitVec.ofNat 32 (i + 1) := by
  rw [Nat.add_comm i 1, BitVec.ofNat_add, ← BitVec.add_assoc]
  rfl

/-- The loop over a given number of blocks. -/
theorem Scans.countBlocks_ends (S : Scans block bs B) : ∀ {n : Nat} {b : Word} {s : State},
    wp (countBlocks (block fuel) n b) (fun _ _ => True) (fun l _ => ¬Bad l) s →
    ∀ i < n, (∀ j < i, Records.Passed (B (b + BitVec.ofNat 32 j)) 0) →
      Records.Sound (B (b + BitVec.ofNat 32 i)) 0 := by
  intro n
  induction n with
  | zero => exact fun _ i hi => absurd hi (Nat.not_lt_zero i)
  | succ n ih =>
    intro b s h i hi hpassed
    obtain ⟨hsound, hrest⟩ := S.block_ends h
    cases i with
    | zero => rwa [BitVec.add_zero]
    | succ i =>
      have hfirst := hpassed 0 (Nat.succ_pos i)
      rw [BitVec.add_zero] at hfirst
      obtain ⟨s', hs'⟩ := hrest hfirst
      rw [← add_one_ofNat]
      refine ih hs' i (Nat.lt_of_succ_lt_succ hi) fun j hj => ?_
      rw [add_one_ofNat]
      exact hpassed (j + 1) (Nat.succ_lt_succ hj)

theorem Scans.wp_countBlocks (S : Scans block bs B) (hfuel : bs < fuel) :
    ∀ {n : Nat} {b : Word} {s : State},
    (∀ i < n, (∀ j < i, Records.Passed (B (b + BitVec.ofNat 32 j)) 0) →
      Records.Sound (B (b + BitVec.ofNat 32 i)) 0) →
    wp (countBlocks (block fuel) n b) (fun _ _ => True) (fun l _ => ¬Bad l) s := by
  intro n
  induction n with
  | zero => exact fun _ => trivial
  | succ n ih =>
    intro b s h
    have hfirst := h 0 (Nat.succ_pos n) fun j hj => absurd hj (Nat.not_lt_zero j)
    rw [BitVec.add_zero] at hfirst
    refine S.wp_block hfuel hfirst fun hpassed s' => ih fun i hi hi' => ?_
    rw [add_one_ofNat]
    refine h (i + 1) (Nat.succ_lt_succ hi) fun j hj => ?_
    cases j with
    | zero => rwa [BitVec.add_zero]
    | succ j =>
      rw [← add_one_ofNat]
      exact hi' j (Nat.lt_of_succ_lt_succ hj)

/-- The blocks from `i` on as a scan of `total` bytes needs them: they are passed and the count of what
is left comes to 0, or there is one that ends the search. -/
def Walked (B : Word → Records.Block) (bs : Nat) (i : Word) (total : Nat) : Prop :=
  (total % bs = 0 ∧ ∀ b < total / bs, Records.Passed (B (i + BitVec.ofNat 32 b)) 0) ∨
  ∃ b, (total % bs = 0 → b < total / bs) ∧
    (∀ j < b, Records.Passed (B (i + BitVec.ofNat 32 j)) 0) ∧
    Records.Sound (B (i + BitVec.ofNat 32 b)) 0 ∧ ¬Records.Passed (B (i + BitVec.ofNat 32 b)) 0

/-- What is left behind a block, also where the count wraps around. -/
theorem left_behind {total : Word} (hdvd : v.blockSize.toNat ∣ 2 ^ 32) (hpos : 0 < total.toNat) :
    (total - v.blockSize).toNat % v.blockSize.toNat = total.toNat % v.blockSize.toNat ∧
      (total.toNat % v.blockSize.toNat = 0 →
        (total - v.blockSize).toNat / v.blockSize.toNat + 1 = total.toNat / v.blockSize.toNat) := by
  have hlt := total.isLt
  have hbs := v.blockSize.isLt
  obtain ⟨q, hq⟩ := hdvd
  generalize hz : v.blockSize.toNat = z at *
  have hsub : (total - v.blockSize).toNat = (2 ^ 32 - z + total.toNat) % 2 ^ 32 := by
    rw [BitVec.toNat_sub, hz]
  have hz0 : 0 < z := by
    rcases Nat.eq_zero_or_pos z with rfl | h
    · rw [Nat.zero_mul] at hq
      exact absurd hq (by decide)
    · exact h
  by_cases hle : z ≤ total.toNat
  · have hval : (total - v.blockSize).toNat = total.toNat - z := by omega
    rw [hval]
    refine ⟨(Nat.mod_eq_sub_mod hle).symm, fun _ => ?_⟩
    exact (Nat.div_eq_sub_div hz0 hle).symm
  · have hval : (total - v.blockSize).toNat + z = total.toNat + 2 ^ 32 := by omega
    refine ⟨?_, fun h => ?_⟩
    · rw [← Nat.add_mod_right, hval, hq, Nat.add_mul_mod_self_left]
    · have hdvd := Nat.dvd_of_mod_eq_zero h
      exact absurd (Nat.le_of_dvd hpos hdvd) hle

theorem Scans.walked (S : Scans block v.blockSize.toNat B) (hdvd : v.blockSize.toNat ∣ 2 ^ 32) :
    ∀ {steps : Nat} {i total : Word} {s : State},
    wp (countdownBlocks v (block fuel) steps i total) (fun _ _ => True) (fun l _ => ¬Bad l) s →
    Walked B v.blockSize.toNat i total.toNat := by
  intro steps
  induction steps with
  | zero => exact fun h => absurd (nofun : Bad .fuel) h
  | succ steps ih =>
    intro i total s h
    have h0 : (0 : Word).toNat = 0 := rfl
    unfold countdownBlocks at h
    rw [wp_ite] at h
    split at h
    case isFalse hno =>
      rw [BitVec.lt_def, h0] at hno
      have hzero : total.toNat = 0 := by omega
      rw [hzero]
      exact .inl ⟨Nat.zero_mod _, fun b hb => absurd hb (by rw [Nat.zero_div]; exact Nat.not_lt_zero b)⟩
    rename_i hpos
    rw [BitVec.lt_def, h0] at hpos
    obtain ⟨hmod, hdiv⟩ := left_behind (v := v) hdvd hpos
    obtain ⟨hsound, hrest⟩ := S.block_ends h
    by_cases hpassed : Records.Passed (B i) 0
    case neg =>
      refine .inr ⟨0, fun h => ?_, fun j hj => absurd hj (Nat.not_lt_zero j), ?_, ?_⟩
      · rw [← hdiv h]
        exact Nat.succ_pos _
      · rwa [BitVec.add_zero]
      · rwa [BitVec.add_zero]
    obtain ⟨s', hs'⟩ := hrest hpassed
    have hshift : ∀ {n : Nat}, (∀ j < n, Records.Passed (B (i + 1 + BitVec.ofNat 32 j)) 0) →
        ∀ j < n + 1, Records.Passed (B (i + BitVec.ofNat 32 j)) 0 := by
      intro n h j hj
      cases j with
      | zero => rwa [BitVec.add_zero]
      | succ j =>
        rw [← add_one_ofNat]
        exact h j (Nat.lt_of_succ_lt_succ hj)
    rcases ih hs' with ⟨hzero, hall⟩ | ⟨b, hlt, hbefore, hsound', hnot⟩
    · rw [hmod] at hzero
      refine .inl ⟨hzero, ?_⟩
      rw [← hdiv hzero]
      exact hshift hall
    · refine .inr ⟨b + 1, fun h => ?_, hshift hbefore, ?_, ?_⟩
      · rw [← hdiv h]
        exact Nat.succ_lt_succ (hlt (by rw [hmod]; exact h))
      · rwa [← add_one_ofNat]
      · rwa [← add_one_ofNat]

/-- Blocks that are passed, and what comes then. -/
theorem Scans.wp_countdownBlocks_passed (S : Scans block v.blockSize.toNat B)
    (hdvd : v.blockSize.toNat ∣ 2 ^ 32) (hfuel : v.blockSize.toNat < fuel) {steps : Nat} :
    ∀ {n : Nat} {i total : Word} {s : State},
    (∀ j < n, Records.Passed (B (i + BitVec.ofNat 32 j)) 0) →
    (total.toNat % v.blockSize.toNat = 0 → n ≤ total.toNat / v.blockSize.toNat) →
    (∀ total' : Word, total'.toNat % v.blockSize.toNat = total.toNat % v.blockSize.toNat →
      (total.toNat % v.blockSize.toNat = 0 →
        total'.toNat / v.blockSize.toNat + n = total.toNat / v.blockSize.toNat) → ∀ s',
      wp (countdownBlocks v (block fuel) steps (i + BitVec.ofNat 32 n) total') (fun _ _ => True)
        (fun l _ => ¬Bad l) s') →
    wp (countdownBlocks v (block fuel) (steps + n) i total) (fun _ _ => True)
      (fun l _ => ¬Bad l) s := by
  intro n
  induction n with
  | zero =>
    intro i total s _ _ h
    have hrest := h total rfl (fun _ => rfl) s
    rwa [BitVec.add_zero] at hrest
  | succ n ih =>
    intro i total s hpassed hn h
    have h0 : (0 : Word).toNat = 0 := rfl
    have hpos : 0 < total.toNat := by
      by_contra hzero
      have hz : total.toNat = 0 := Nat.eq_zero_of_not_pos hzero
      have hle := hn (by rw [hz]; exact Nat.zero_mod _)
      rw [hz, Nat.zero_div] at hle
      exact absurd hle (Nat.not_succ_le_zero n)
    obtain ⟨hmod, hdiv⟩ := left_behind (v := v) hdvd hpos
    have hfirst := hpassed 0 (Nat.succ_pos n)
    rw [BitVec.add_zero] at hfirst
    have hsteps : steps + (n + 1) = steps + n + 1 := rfl
    rw [hsteps]
    unfold countdownBlocks
    rw [wp_ite, if_pos (by rw [BitVec.lt_def, h0]; exact hpos)]
    refine S.wp_block hfuel hfirst.sound fun _ s' => ih (fun j hj => ?_) (fun hz => ?_)
      fun total' hmod' hdiv' s'' => ?_
    · rw [add_one_ofNat]
      exact hpassed (j + 1) (Nat.succ_lt_succ hj)
    · rw [hmod] at hz
      have hle := hn hz
      have heq := hdiv hz
      omega
    · rw [add_one_ofNat]
      refine h total' (hmod'.trans hmod) (fun hz => ?_) s''
      have heq := hdiv hz
      have heq' := hdiv' (hmod.trans hz)
      omega

theorem Walked.ends (S : Scans block v.blockSize.toNat B) (hdvd : v.blockSize.toNat ∣ 2 ^ 32)
    {i total : Word} (h : Walked B v.blockSize.toNat i total.toNat) :
    Ends (fun fuel => countdownBlocks v (block fuel) fuel i total) s := by
  have h0 : (0 : Word).toNat = 0 := rfl
  rcases h with ⟨hzero, hall⟩ | ⟨b, hlt, hbefore, hsound, hnot⟩
  · refine ⟨v.blockSize.toNat + 1 + total.toNat / v.blockSize.toNat, ?_⟩
    refine S.wp_countdownBlocks_passed hdvd (Nat.lt_of_lt_of_le (Nat.lt_succ_self _)
      (Nat.le_add_right _ _)) hall (fun _ => Nat.le_refl _)
      fun total' hmod hdiv s' => ?_
    have hdiv' : total'.toNat / v.blockSize.toNat = 0 := by
      have heq := hdiv hzero
      omega
    have htotal : total'.toNat = 0 := by
      have h := Nat.div_add_mod total'.toNat v.blockSize.toNat
      rw [hmod, hzero, hdiv', Nat.mul_zero] at h
      exact h.symm
    unfold countdownBlocks
    rw [wp_ite, if_neg (by rw [BitVec.lt_def, h0, htotal]; exact Nat.lt_irrefl 0)]
    trivial
  · refine ⟨v.blockSize.toNat + 1 + b, ?_⟩
    refine S.wp_countdownBlocks_passed hdvd (by omega) hbefore (fun h => Nat.le_of_lt (hlt h))
      fun total' hmod hdiv s' => ?_
    have hpos : 0 < total'.toNat := by
      by_contra hno
      have hz : total'.toNat = 0 := Nat.eq_zero_of_not_pos hno
      rw [hz, Nat.zero_mod] at hmod
      have heq := hdiv hmod.symm
      have hb := hlt hmod.symm
      rw [hz, Nat.zero_div] at heq
      omega
    unfold countdownBlocks
    rw [wp_ite, if_pos (by rw [BitVec.lt_def, h0]; exact hpos)]
    exact S.wp_block (by omega) hsound fun hpassed => absurd hpassed hnot

/-- A scan that counts down ends exactly where its blocks let it. -/
theorem Scans.ends_iff (S : Scans block v.blockSize.toNat B) (hdvd : v.blockSize.toNat ∣ 2 ^ 32)
    {i total : Word} : Ends (fun fuel => countdownBlocks v (block fuel) fuel i total) s ↔
      Walked B v.blockSize.toNat i total.toNat :=
  ⟨fun ⟨_, h⟩ => S.walked hdvd h, fun h => h.ends S hdvd⟩

/-- Nothing ends the search of `entry_count`. -/
theorem counted_passed (h : Records.Sound (counted v buffer) e) :
    Records.Passed (counted v buffer) e := by
  induction h with
  | done => exact .done
  | stop _ hs => exact hs.elim
  | next hin hno hpos _ ih => exact .next hin hno hpos ih

/-- The records of every block fill it, and the blocks are the size. -/
def Counted (v : Volume) (n : Inode) : Prop :=
  n.size.toNat % v.blockSize.toNat = 0 ∧ ∀ b < n.size.toNat / v.blockSize.toNat,
    Records.Passed (counted v (n.block (BitVec.ofNat 32 b))) 0

theorem walked_counted {n : Inode} :
    Walked (fun b => counted v (n.block b)) v.blockSize.toNat 0 n.size.toNat ↔ Counted v n := by
  have hzero : ∀ b : Nat, (0 : Word) + BitVec.ofNat 32 b = BitVec.ofNat 32 b := fun b =>
    BitVec.zero_add _
  unfold Walked Counted
  simp only [hzero]
  constructor
  · rintro (h | ⟨b, -, -, hsound, hnot⟩)
    · exact h
    · exact absurd (counted_passed hsound) hnot
  · exact .inl

theorem entryCount_ends {n : Inode} : Ends (entryCount v n) s ↔ s.entries ≠ 0 ∨ Counted v n := by
  have hcount := @Scans.ends_iff v s Unit _ _
    (scans (fun _ => rfl) fun b => @reads_counted v (n.block b)) v.power 0 n.size
  rw [walked_counted] at hcount
  by_cases h0 : s.entries = 0
  · rw [← hcount]
    refine ⟨fun ⟨fuel, h⟩ => .inr ⟨fuel, ?_⟩, fun h => ?_⟩
    · unfold entryCount at h
      rw [wp_bind, wp_get] at h
      simp only [h0, if_true, wp_bind] at h
      exact wp_mono h (fun _ _ _ => trivial) fun _ _ h => h
    · obtain ⟨fuel, h⟩ := h.resolve_left fun h => h h0
      refine ⟨fuel, ?_⟩
      unfold entryCount
      rw [wp_bind, wp_get]
      simp only [h0, if_true, wp_bind]
      exact h
  · refine ⟨fun _ => .inl h0, fun _ => ⟨0, ?_⟩⟩
    unfold entryCount
    rw [wp_bind, wp_get]
    simp only [h0, if_false]
    trivial

theorem findScan_ends {n : Inode} : Ends (findScan v n path) s ↔
    Walked (fun b => found v (n.block b) path) v.blockSize.toNat 0 n.size.toNat :=
  (scans (fun _ => rfl) fun b => @reads_found v (n.block b) path).ends_iff v.power

theorem openScan_ends {n : Inode} :
    Ends (openScan v n path) s ↔ ∀ i < n.size.toNat / v.blockSize.toNat,
      (∀ j < i, Records.Passed (opened v (n.block (BitVec.ofNat 32 j)) path) 0) →
        Records.Sound (opened v (n.block (BitVec.ofNat 32 i)) path) 0 := by
  have hdiv : (n.size / v.blockSize).toNat = n.size.toNat / v.blockSize.toNat :=
    BitVec.toNat_udiv ..
  have hzero : ∀ b : Nat, (0 : Word) + BitVec.ofNat 32 b = BitVec.ofNat 32 b := fun b =>
    BitVec.zero_add _
  have S := scans (fun _ => rfl) fun b => @reads_opened v (n.block b) path
  constructor
  · rintro ⟨fuel, h⟩
    have hall := S.countBlocks_ends h
    rw [hdiv] at hall
    simpa only [hzero] using hall
  · intro h
    refine ⟨v.blockSize.toNat + 1, S.wp_countBlocks (Nat.lt_succ_self _) ?_⟩
    rw [hdiv]
    simpa only [hzero] using h

end Block

/-- For which directories the three scans end, and look at nothing behind the block they have read. -/
theorem scans_end (v : Volume) (n : Inode) (path : Nat → Byte) (s : State) :
    (Ends (entryCount v n) s ↔ s.entries ≠ 0 ∨ Counted v n) ∧
    (Ends (findScan v n path) s ↔
      Walked (fun b => found v (n.block b) path) v.blockSize.toNat 0 n.size.toNat) ∧
    (Ends (openScan v n path) s ↔ ∀ i < n.size.toNat / v.blockSize.toNat,
      (∀ j < i, Records.Passed (opened v (n.block (BitVec.ofNat 32 j)) path) 0) →
        Records.Sound (opened v (n.block (BitVec.ofNat 32 i)) path) 0) :=
  ⟨entryCount_ends, findScan_ends, openScan_ends⟩

/-- A directory of blocks of 1024 bytes that begin with a record of length 0, named `y`. -/
def stuck : Inode where
  mode := 0x41ed
  size := 1024
  block _ o := ([12, 0, 0, 0, 0, 0, 1, 0, 121] : List Byte).getD o 0
  symbol _ := 0

/-- A volume with one group of inodes. -/
def small : Volume := ⟨1024, power_1024, 8192, 1, fun _ => stuck⟩

/-- The scan for `x` is not ended by that record, nor does it get to another one. -/
theorem scans_hang : ¬Ends (entryCount small stuck) ⟨0, []⟩ ∧
    ¬Ends (findScan small stuck fun i => if i = 0 then 120 else 0) ⟨0, []⟩ ∧
    ¬Ends (openScan small stuck fun i => if i = 0 then 120 else 0) ⟨0, []⟩ := by
  have hother : ¬Same (stuck.block 0) (fun i => if i = 0 then 120 else 0) 0 := by
    intro h
    exact absurd (h 0 (by decide)) (by decide)
  refine ⟨fun h => ?_, fun h => ?_, fun h => ?_⟩
  · rcases entryCount_ends.mp h with h | h
    · exact h rfl
    · exact Records.not_sound (by decide) (fun h => h) rfl (h.2 0 (by decide)).sound
  · have hno : ¬Records.Sound (found small (stuck.block 0) fun i => if i = 0 then 120 else 0) 0 :=
      Records.not_sound (by decide) (fun h => hother h.1) rfl
    rcases findScan_ends.mp h with ⟨-, hall⟩ | ⟨b, hlt, hbefore, hsound, -⟩
    · exact hno (hall 0 (by decide)).sound
    · exact hno hsound
  · have hno : ¬Records.Sound (opened small (stuck.block 0) fun i => if i = 0 then 120 else 0) 0 :=
      Records.not_sound (by decide) (fun h => hother h.1) rfl
    exact hno (openScan_ends.mp h 0 (by decide) fun j hj => absurd hj (Nat.not_lt_zero j))

end Dir

end OsKernel.Ext2
