import OsKernel.Elf.Load

/-!
# Where the loader stores

`ELF::load` takes the addresses of its stores from the file, and checks none. What it stores
to is exactly the segments that it reaches; these lie in user memory if their ranges do.

The condition is on the file alone: each of the two ranges of a segment (its bytes, and the
zeros behind them) is empty or lies in user memory, where neither range may wrap around the
end of the address space. `RangeFree` is that in numbers; `not_protected` and
`of_not_protected` are the two directions between it and the plain statement that no byte of
the range is protected. A range that wraps has its last bytes at address 0 and is never free.

Segments that the loop does not come to do not matter: it stops at the first program header
that the file does not have, and a loader that has stopped stores nothing more. That is why
the condition is about the segments reached (`Reached`), and with it the equivalence is exact.

The second direction needs that no store is refused before it is made. The page fault handler
refuses only protected addresses, and at a protected address the loader is lost already.
-/

set_option autoImplicit false

namespace OsKernel.Elf

open Lib Prog
open Sys (Config)
open Sys.Buffers (Protected)
open Block (Device)

/-- The range is empty, or in user memory and outside the pages of the APICs. -/
def RangeFree (g : Config) (a : Word) (n : Nat) : Prop :=
  n = 0 ∨ (2 ^ 31 ≤ a.toNat ∧ a.toNat + n ≤ 2 ^ 32 ∧
    (a.toNat + n ≤ g.localAPIC.toNat ∨ g.localAPIC.toNat + 4096 ≤ a.toNat) ∧
    (a.toNat + n ≤ g.ioAPIC.toNat ∨ g.ioAPIC.toNat + 4096 ≤ a.toNat))

instance (g : Config) (a : Word) (n : Nat) : Decidable (RangeFree g a n) :=
  inferInstanceAs (Decidable (_ ∨ _))

instance (g : Config) (a : Nat) : Decidable (Protected g a) :=
  inferInstanceAs (Decidable (_ ∨ _))

variable {g : Config} {a : Word} {n : Nat}

/-- Before the end of memory addresses do not wrap. -/
theorem toNat_offset {i : Nat} (h : a.toNat + i < 2 ^ 32) :
    (a + BitVec.ofNat 32 i).toNat = a.toNat + i := by
  rw [BitVec.toNat_add, BitVec.toNat_ofNat]
  omega

theorem RangeFree.not_protected (h : RangeFree g a n) {i : Nat} (hi : i < n) :
    ¬Protected g (a + BitVec.ofNat 32 i).toNat := by
  rcases h with h | ⟨h₁, h₂, h₃, h₄⟩
  · omega
  · rw [toNat_offset (by omega)]
    unfold Protected
    omega

/-- A range that is not free has a protected byte. -/
theorem RangeFree.of_not_protected (h : ∀ i < n, ¬Protected g (a + BitVec.ofNat 32 i).toNat) :
    RangeFree g a n := by
  have ha := a.isLt
  by_cases hn : n = 0
  · exact .inl hn
  have hat : ∀ i, i < n → a.toNat + i < 2 ^ 32 → ¬Protected g (a.toNat + i) := by
    intro i hi hlt
    rw [← toNat_offset hlt]
    exact h i hi
  have hwrap : a.toNat + n ≤ 2 ^ 32 := by
    by_contra hover
    refine h (2 ^ 32 - a.toNat) (by omega) (.inl ?_)
    rw [BitVec.toNat_add, BitVec.toNat_ofNat]
    omega
  have page : ∀ apic : Nat, (∀ i, i < n → ¬(apic ≤ a.toNat + i ∧ a.toNat + i < apic + 4096)) →
      a.toNat + n ≤ apic ∨ apic + 4096 ≤ a.toNat := by
    intro apic hno
    by_contra hmeet
    have h₀ := hno (apic - a.toNat)
    omega
  refine .inr ⟨?_, hwrap, page _ fun i hi hin => ?_, page _ fun i hi hin => ?_⟩
  · by_contra hlow
    exact hat 0 (by omega) (by omega) (.inl (by omega))
  · exact hat i hi (by omega) (.inr (.inr (.inl hin)))
  · exact hat i hi (by omega) (.inr (.inr (.inr hin)))

/-! ## The loader -/

variable {refused : Word → Bool} {d : Device} {eh : Header} {s : State}

/-- No store has gone to a protected address. -/
def OnlyUser (g : Config) (s : State) : Prop :=
  ∀ x, Touches s.bus.stores x → ¬Protected g x.toNat

/-- The two ranges of a segment are free. -/
def SegmentFree (g : Config) (d : Device) (ph : ProgramHeader) : Prop :=
  RangeFree g ph.vaddr (fileBytes d ph) ∧ RangeFree g (ph.vaddr + ph.filesize) (zeroBytes ph)

theorem segmentFree_iff {ph : ProgramHeader} :
    SegmentFree g d ph ↔ ∀ x, InSegment d ph x → ¬Protected g x.toNat := by
  constructor
  · rintro ⟨hfile, hzero⟩ x (⟨i, hi, rfl⟩ | ⟨i, hi, rfl⟩)
    · exact hfile.not_protected hi
    · exact hzero.not_protected hi
  · intro h
    exact ⟨RangeFree.of_not_protected fun i hi => h _ (.inl ⟨i, hi, rfl⟩),
      RangeFree.of_not_protected fun i hi => h _ (.inr ⟨i, hi, rfl⟩)⟩

/-- The loop comes to the `i`-th program header. -/
def Reached (d : Device) (eh : Header) (i : Nat) : Prop := ∀ j ≤ i, Readable d eh j

/-- Free segments keep the loader in user memory. -/
theorem load_onlyUser (hfree : ∀ i < eh.phentnum.toNat, Reached d eh i →
      (programHeader d eh i).type = 1 → SegmentFree g d (programHeader d eh i))
    (hs : OnlyUser g s) :
    wp (load refused d eh) (fun _ => OnlyUser g) (fun _ => OnlyUser g) s := by
  refine wp_seq (wp_forI (I := fun i s' => (∀ j < i, Readable d eh j) ∧ OnlyUser g s')
    (fun i hi s' hs' => ?_) ⟨fun j hj => absurd hj (Nat.not_lt_zero j), hs⟩) fun _ s' hs' => hs'.2
  obtain ⟨hread, huser⟩ := hs'
  have hreached : Readable d eh i → Reached d eh i := fun h j hj =>
    (Nat.lt_or_eq_of_le hj).elim (hread j) fun he => he ▸ h
  have hin : ∀ {s₂ : State}, Readable d eh i → (programHeader d eh i).type = 1 →
      (∀ x, Touches s₂.bus.stores x → InSegment d (programHeader d eh i) x ∨
        Touches s'.bus.stores x) → OnlyUser g s₂ := by
    intro s₂ hr htype hst x hx
    rcases hst x hx with hx | hx
    · exact segmentFree_iff.mp (hfree i hi (hreached hr) htype) x hx
    · exact huser x hx
  refine wp_mono (wp_loadOne i) (fun _ s₂ h => ?_) fun l s₂ h => ?_
  · obtain ⟨hr, hst⟩ := h
    refine ⟨fun j hj => hreached hr j (Nat.le_of_lt_succ hj), ?_⟩
    by_cases htype : (programHeader d eh i).type = 1
    · rw [if_pos htype] at hst
      exact hin hr htype fun x hx => (hst.stores x).mp hx
    · rw [if_neg htype] at hst
      rw [hst]
      exact huser
  · rcases h with ⟨-, -, rfl⟩ | ⟨-, hr, htype, hend⟩
    · exact huser
    · exact hin hr htype hend.stores

/-- What the loader has reached, it has stored to. -/
theorem load_reaches (hrefused : ∀ x, refused x = true → Protected g x.toNat) :
    wp (load refused d eh)
      (fun _ s' => OnlyUser g s' → ∀ i < eh.phentnum.toNat, Reached d eh i →
        (programHeader d eh i).type = 1 → SegmentFree g d (programHeader d eh i))
      (fun _ s' => OnlyUser g s' → ∀ i < eh.phentnum.toNat, Reached d eh i →
        (programHeader d eh i).type = 1 → SegmentFree g d (programHeader d eh i)) s := by
  have free : ∀ {s' : State} {i : Nat}, (∀ x, InSegment d (programHeader d eh i) x →
      Touches s'.bus.stores x) → OnlyUser g s' → SegmentFree g d (programHeader d eh i) :=
    fun hst huser => segmentFree_iff.mpr fun x hx => huser x (hst x hx)
  refine wp_seq (wp_forI (I := fun i s' => ∀ j < i, (programHeader d eh j).type = 1 →
    ∀ x, InSegment d (programHeader d eh j) x → Touches s'.bus.stores x)
    (fun i hi s' hs' => ?_) fun j hj => absurd hj (Nat.not_lt_zero j)) fun _ s' hs' => ?_
  · refine wp_mono (wp_loadOne i) (fun _ s₂ h => ?_) fun l s₂ h => ?_
    · intro j hj htype x hx
      rcases Nat.lt_or_eq_of_le (Nat.le_of_lt_succ hj) with hj | rfl
      · have hold := hs' j hj htype x hx
        by_cases hnow : (programHeader d eh i).type = 1
        · rw [if_pos hnow] at h
          exact (h.2.stores x).mpr (.inr hold)
        · rw [if_neg hnow] at h
          rw [h.2]
          exact hold
      · rw [if_pos htype] at h
        exact (h.2.stores x).mpr (.inl hx)
    · rcases h with ⟨-, hno, rfl⟩ | ⟨-, -, -, hend⟩
      · intro huser j _ hreached htype
        have hj : j < i := by
          by_contra hge
          exact hno (hreached i (Nat.not_lt.mp hge))
        exact free (hs' j hj htype) huser
      · intro huser
        obtain ⟨x, -, hr, hx⟩ := hend.hit
        exact absurd (hrefused x hr) (huser x hx)
  · exact fun huser i hi _ htype => free (hs' i hi htype) huser

/-- The loader stores only into user memory exactly where the segments it reaches lie there. -/
theorem load_stores_user (g : Config) (refused : Word → Bool)
    (hrefused : ∀ x, refused x = true → Protected g x.toNat) (d : Device) (eh : Header)
    (s : State) (hs : s.bus.stores = []) :
    wp (load refused d eh) (fun _ => OnlyUser g) (fun _ => OnlyUser g) s ↔
      ∀ i < eh.phentnum.toNat, (∀ j ≤ i, Readable d eh j) → (programHeader d eh i).type = 1 →
        SegmentFree g d (programHeader d eh i) := by
  constructor
  · intro h
    have hreaches : wp (load refused d eh) _ _ s := load_reaches hrefused
    have hboth := wp_and h hreaches
    unfold wp at hboth
    split at hboth
    · exact hboth.2 hboth.1
    · exact hboth.2 hboth.1
  · intro h
    refine load_onlyUser h fun x hx => ?_
    rw [hs] at hx
    obtain ⟨p, hp, -⟩ := hx
    cases hp

/-! ## One file -/

instance (d : Device) (eh : Header) (i : Nat) : Decidable (Readable d eh i) :=
  inferInstanceAs (Decidable (_ ≤ _))

instance (g : Config) (d : Device) (ph : ProgramHeader) : Decidable (SegmentFree g d ph) :=
  inferInstanceAs (Decidable (_ ∧ _))

/-- The bytes of a word, the lowest first. -/
def bytesOf (w : Word) : List Byte := (List.range 4).map fun i => w.extractLsb' (8 * i) 8

/-- A header, `phentnum` times the program header behind it, and four bytes. -/
def smallFile (phentnum : Byte) (vaddr filesize : Word) : Device where
  order := 10
  blockSize := 1024
  blockSize_eq := rfl
  size := 88
  content i :=
    ([0x7f, 0x45, 0x4c, 0x46, 1, 1, 1, 0, 0, 0, 0, 0, 0, 0, 0, 0, 2, 0, 3, 0, 1, 0, 0, 0] ++
      [0, 0, 0, 0x80, 52, 0, 0, 0, 0, 0, 0, 0, 0, 0, 0, 0] ++
      [52, 0, 32, 0, phentnum, 0, 0, 0, 0, 0, 0, 0] ++
      bytesOf 1 ++ bytesOf 84 ++ bytesOf vaddr ++ bytesOf 0 ++ bytesOf filesize ++
      bytesOf filesize ++ bytesOf 0 ++ bytesOf 0 ++ [1, 2, 3, 4]).getD i 0

instance (d : Device) : Decidable (Accepted d) :=
  decidable_of_iff (52 ≤ d.size.toNat ∧ (header d).magic = 0x464c457f ∧ (header d).cls = 1 ∧
    (header d).endian = 1 ∧ (header d).abi = 0 ∧ (header d).type = 2 ∧ (header d).machine = 3 ∧
    0x80000000 ≤ (header d).entry)
    ⟨fun ⟨h₁, h₂, h₃, h₄, h₅, h₆, h₇, h₈⟩ => ⟨h₁, h₂, h₃, h₄, h₅, h₆, h₇, h₈⟩,
      fun ⟨h₁, h₂, h₃, h₄, h₅, h₆, h₇, h₈⟩ => ⟨h₁, h₂, h₃, h₄, h₅, h₆, h₇, h₈⟩⟩

def noTables : State where
  bus := ⟨fun _ => 0, [], []⟩
  fdt := Sys.Table.empty
  pdt := Sys.Table.empty
  sdt := Sys.Table.empty

theorem readHeader_accepts {d : Device} (h : Accepted d) (s : State) :
    readHeader d s = .ok (some (header d)) s := by
  obtain ⟨r, s', hrun, rfl, hsome, hnone⟩ := wp_returns (wp_readHeader (d := d) (s := s))
  cases r with
  | none => exact absurd h (hnone rfl)
  | some eh => rw [hrun, (hsome eh rfl).1]

/-- A segment at 1 MB, where the kernel is. -/
theorem kernel_overwritten :
    let d := smallFile 1 0x00100000 4
    readHeader d noTables = .ok (some (header d)) noTables ∧
    ¬wp (load (fun _ => false) d (header d)) (fun _ => OnlyUser ⟨0xfee00000, 0xfec00000⟩)
      (fun _ => OnlyUser ⟨0xfee00000, 0xfec00000⟩) noTables := by
  intro d
  refine ⟨readHeader_accepts (by decide) _, fun h => ?_⟩
  have hreaches : wp (load (fun _ => false) d (header d)) _ _ noTables :=
    load_reaches (g := ⟨0xfee00000, 0xfec00000⟩) (fun _ hx => by cases hx)
  have hboth := wp_and h hreaches
  have hreached : Reached d (header d) 0 := fun j hj => by
    rw [Nat.le_zero.mp hj]
    decide
  have hno : ¬SegmentFree ⟨0xfee00000, 0xfec00000⟩ d (programHeader d (header d) 0) := by decide
  unfold wp at hboth
  split at hboth
  · exact hno (hboth.2 hboth.1 0 (by decide) hreached (by decide))
  · exact hno (hboth.2 hboth.1 0 (by decide) hreached (by decide))

/-- A segment at the start of user memory. -/
theorem load_stores_user_small :
    let d := smallFile 1 0x80000000 4
    wp (load (fun a => decide (a < 0x80000000)) d (header d))
      (fun _ => OnlyUser ⟨0xfee00000, 0xfec00000⟩) (fun _ => OnlyUser ⟨0xfee00000, 0xfec00000⟩)
      noTables := by
  intro d
  refine (load_stores_user ⟨0xfee00000, 0xfec00000⟩ (fun a => decide (a < 0x80000000))
    (fun a ha => .inl ?_) d (header d) noTables rfl).mpr fun i hi _ _ => ?_
  · exact of_decide_eq_true ha
  · have hn : (header d).phentnum.toNat = 1 := by decide
    obtain rfl : i = 0 := by omega
    decide

end OsKernel.Elf
