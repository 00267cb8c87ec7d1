import OsKernel.Elf.Renewed

/-!
# The arguments, over the page tables

What `Elf/Arguments.lean` and `Elf/Stack.lean` say is about a program in one memory. The
programs over the page tables do the same, as long as they read and store what a process
finds, or the memory that the kernel has for itself: `Mirrors` relates the two.

`Mirrors` is the simulation of `Lib/Simulation.lean`, with the relation `Flat` between a world
and a memory: at the addresses of the process the memory has what the process finds, and at
the kernel's own what the kernel has. Where the flat program returns the paged one does too,
with the same result, or it has stopped because frames ran out. A guarantee about the flat
program is then one about the paged one (`Sim.transfer`), and `Elf/Fresh.lean` uses it twice,
for the gathering and for the push. The texts of the programs are the same but for the
accesses, so each proof here is one line for each line of them.

It goes one way only, and has to give something up. At an address that is neither the
process's nor the kernel's own the flat memory has nothing to say, and the flat program stops
there (`foreign`); the paged one reads what is there. The arguments of a process that passes
such an address are not its own, and of them nothing is said.
-/

set_option autoImplicit false

namespace OsKernel.Elf.Paged

open Lib Prog
open Vmm

variable {T : Setting} {m : Bytes} {w : World} {u : Buffer} {va v : Word} {α : Type}
  {G : Leave → Prop}

/-! ## One memory for both -/

/-- The memory `f` has in it what the process finds and what the kernel has. -/
structure Flat (T : Setting) (w : World) (f : Bytes) : Prop where
  holds : Holds T f w.machine
  own : ∀ va, Own va → f va = w.kernel va

/-- The memory `m`, and in it what the kernel has. -/
def joined (m : Bytes) (w : World) : Bytes := fun va => if Own va then w.kernel va else m va

theorem joined_user (hu : T.config.UserAddr va) : joined m w va = m va :=
  if_neg fun hva => hva.not_user hu

theorem Holds.flat (H : Holds T m w.machine) : Flat T w (joined m w) where
  holds := H.congr fun _ hu => (joined_user hu).symm
  own _ hva := if_pos hva

/-- The program does over the page tables what another does in one memory. -/
abbrev Mirrors (T : Setting) (G : Leave → Prop) (x : Mem α) (y : Run α) : Prop :=
  Sim (Flat T) G End.NotStarted x y

theorem mirrors_load {o : Window Leave} (hok : o.ok va = true) (hu : T.config.UserAddr va) :
    Mirrors T G (o.load va) (loadByte false va) := by
  intro f w F
  refine Window.wp_load (fun _ => ?_) fun hno => absurd hok (by rw [hno]; simp)
  refine wp_mono (wp_loadByte F.holds hu) (fun b w' h => ?_) fun _ _ he => he.notStarted
  obtain ⟨rfl, H', hk⟩ := h
  exact ⟨rfl, H', fun va' hva' => (F.own va' hva').trans (by rw [hk])⟩

theorem mirrors_store {o : Window Leave} (hok : o.ok va = true) (hu : T.config.UserAddr va)
    (b : Byte) : Mirrors T G (o.store va b) (storeByte va b) := by
  intro f w F
  refine Window.wp_store (fun _ => ?_) fun hno => absurd hok (by rw [hno]; simp)
  refine wp_mono (wp_storeByte F.holds hu) (fun _ w' h => ?_) fun _ _ he => he.notStarted
  refine ⟨rfl, h.1, fun va' hva' => ?_⟩
  have hne : va' ≠ va := fun he => hva'.not_user (he ▸ hu)
  rw [overlay_one, Function.update_of_ne hne, h.2]
  exact F.own va' hva'

/-- A load through the buffer is one from the kernel's own memory. -/
theorem mirrors_loadIn (hu : OnHeap u) : Mirrors T G (u.window.load va) (loadIn u va) := by
  intro f w F
  unfold loadIn
  by_cases hva : u.Has va
  · rw [if_pos hva]
    refine Window.wp_load (fun _ => ?_) fun hno => absurd (window_ok.mpr hva) (by rw [hno]; simp)
    refine wp_mono (wp_loadByte_own F.holds (hu.own hva)) (fun b w' h => ?_) fun _ _ hf => hf.elim
    obtain ⟨rfl, rfl⟩ := h
    exact ⟨(F.own va (hu.own hva)).symm, F⟩
  · rw [if_neg hva]
    exact Window.wp_load (fun hyes => absurd (window_ok.mp hyes) hva) fun _ =>
      .inr (notStarted_leave fun _ _ h => by cases h)

theorem mirrors_storeIn (hu : OnHeap u) (b : Byte) :
    Mirrors T G (u.window.store va b) (storeIn u va b) := by
  intro f w F
  unfold storeIn
  by_cases hva : u.Has va
  · rw [if_pos hva]
    refine Window.wp_store (fun _ => ?_) fun hno => absurd (window_ok.mpr hva) (by rw [hno]; simp)
    refine wp_mono (wp_storeByte_own F.holds (hu.own hva)) (fun _ w' h => ?_) fun _ _ hf => hf.elim
    subst h
    refine ⟨rfl, F.holds.congr fun va' hu' => ?_, fun va' hva' => ?_⟩
    · have hne : va' ≠ va := fun he => (hu.own hva).not_user (he ▸ hu')
      rw [overlay_one, Function.update_of_ne hne]
    · simp only [overlay_one]
      by_cases he : va' = va
      · rw [he, Function.update_self, Function.update_self]
      · rw [Function.update_of_ne he, Function.update_of_ne he]
        exact F.own va' hva'
  · rw [if_neg hva]
    exact Window.wp_store (fun hyes => absurd (window_ok.mp hyes) hva) fun _ =>
      .inr (notStarted_leave fun _ _ h => by cases h)

theorem mirrors_storeInWord (hu : OnHeap u) :
    Mirrors T G (u.window.storeWord va v) (storeBytes (storeIn u) va v) :=
  .forI fun _ _ => mirrors_storeIn hu _

/-! ## The block goes to the stack -/

/-- A memory in which nothing is refused. -/
abbrev everywhere : Window Leave := user fun _ => false

theorem mirrors_loadWord (hu : ∀ i < 4, T.config.UserAddr (va + BitVec.ofNat 32 i)) :
    Mirrors T G (everywhere.loadWord va) (loadWord va) := by
  have h₀ : T.config.UserAddr va := by
    have h := hu 0 (by decide)
    rwa [BitVec.add_zero] at h
  refine (mirrors_load rfl h₀).bind fun b₀ => ?_
  refine (mirrors_load rfl (hu 1 (by decide))).bind fun b₁ => ?_
  refine (mirrors_load rfl (hu 2 (by decide))).bind fun b₂ => ?_
  exact (mirrors_load rfl (hu 3 (by decide))).bind fun b₃ => .pure _

theorem mirrors_storeWord (hu : ∀ i < 4, T.config.UserAddr (va + BitVec.ofNat 32 i)) :
    Mirrors T G (everywhere.storeWord va v) (storeBytes storeByte va v) :=
  .forI fun i hi => mirrors_store rfl (hu i hi) _

section block

variable {g : Sys.Config} {e : Word} {argc : Nat}

/-- The copy in the buffer goes to the block. -/
theorem mirrors_push (P : Placed g u.size e) (hu : OnHeap u) (hfit : 4 * (argc + 1) ≤ u.size.toNat)
    (hblock : ∀ i < 8 + u.size.toNat, T.config.UserAddr (e + BitVec.ofNat 32 i)) :
    Mirrors T G (Elf.push g everywhere u (BitVec.ofNat 32 argc))
      (push g u (BitVec.ofNat 32 argc)) := by
  obtain ⟨hat, hcount, hlow, hmid⟩ := placed_offsets P hfit
  have hword : ∀ o, o + 4 ≤ 8 + u.size.toNat →
      ∀ i < 4, T.config.UserAddr (e + BitVec.ofNat 32 o + BitVec.ofNat 32 i) := fun o ho i hi => by
    rw [add_ofNat]
    exact hblock _ (by omega)
  unfold Elf.push push
  simp only [hat, hcount, hlow, hmid]
  refine Sim.bind (.forI fun i hi => ?_) fun _ => ?_
  · refine (mirrors_loadIn hu).bind fun b => mirrors_store rfl ?_ b
    have hi' : i < u.size.toNat := Nat.lt_of_lt_of_le hi (zeros_le_size u.size)
    rw [add_ofNat]
    exact hblock _ (by omega)
  refine Sim.bind (.forI fun i hi => ?_) fun _ => ?_
  · unfold Elf.relocateAt relocateAt
    rw [four_mul_ofNat, add_ofNat]
    exact (mirrors_loadWord (hword _ (by omega))).bind fun b =>
      mirrors_storeWord (hword _ (by omega))
  refine (mirrors_storeWord (hword 0 (by omega))).bind fun _ => ?_
  exact (mirrors_storeWord (hword 4 (by omega))).bind fun _ => .pure _

end block

/-! ## The arguments, where they are the process's own -/

/-- The addresses that are not the process's. -/
def foreign (c : Vmm.Config) (va : Word) : Bool := !decide (c.UserAddr va)

/-- Nothing is said of a read at a foreign address, or of a loop that does not end. -/
def GivenUp (l : Leave) : Prop := l = .killed ∨ l = .fuel

theorem foreign_ok {c : Vmm.Config} : (user (foreign c)).ok va = true ↔ c.UserAddr va := by
  unfold user foreign
  simp

theorem mirrors_loadOwn (va : Word) :
    Mirrors T GivenUp ((user (foreign T.config)).load va) (loadByte false va) := by
  by_cases hu : T.config.UserAddr va
  · exact mirrors_load (foreign_ok.mpr hu) hu
  · intro f w F
    exact Window.wp_load (fun hyes => absurd (foreign_ok.mp hyes) hu) fun _ => .inl (.inl rfl)

theorem mirrors_loadOwnWord (va : Word) :
    Mirrors T GivenUp ((user (foreign T.config)).loadWord va) (loadWord va) :=
  (mirrors_loadOwn _).bind fun _ => (mirrors_loadOwn _).bind fun _ =>
    (mirrors_loadOwn _).bind fun _ => (mirrors_loadOwn _).bind fun _ => .pure _

theorem mirrors_strlenLoop : ∀ (fuel : Nat) (str n : Word),
    Mirrors T GivenUp (Elf.strlenLoop (user (foreign T.config)) fuel str n) (strlenLoop fuel str n)
  | 0, _, _ => .giveUp (.inr rfl) _
  | fuel + 1, str, n => by
    refine (mirrors_loadOwn str).bind fun b => ?_
    split
    · exact mirrors_strlenLoop fuel _ _
    · exact .pure n

theorem mirrors_strlen (str : Word) :
    Mirrors T GivenUp (Elf.strlen (user (foreign T.config)) str) (strlen str) :=
  mirrors_strlenLoop _ _ _

theorem mirrors_measureLoop (argv : Word) : ∀ (fuel : Nat) (argc sz : Word),
    Mirrors T GivenUp (Elf.measureLoop (user (foreign T.config)) argv fuel argc sz)
      (measureLoop argv fuel argc sz)
  | 0, _, _ => .giveUp (.inr rfl) _
  | fuel + 1, argc, sz => by
    refine (mirrors_loadOwnWord _).bind fun str => ?_
    split
    · exact (mirrors_strlen str).bind fun len => mirrors_measureLoop argv fuel _ _
    · exact .pure _

theorem mirrors_measure (argv : Word) :
    Mirrors T GivenUp (Elf.measure (user (foreign T.config)) argv) (measure argv) :=
  mirrors_measureLoop argv _ _ _

theorem mirrors_gather (hu : OnHeap u) (argv argc : Word) :
    Mirrors T GivenUp (Elf.gather (user (foreign T.config)) u argv argc) (gather u argv argc) := by
  refine Sim.bind (.foldI fun i string => ?_) fun _ => mirrors_storeInWord hu
  refine (mirrors_loadOwnWord _).bind fun str => ?_
  refine (mirrors_strlen str).bind fun len => ?_
  refine Sim.bind (.forI fun j _ => ?_) fun _ => ?_
  · exact (mirrors_loadOwn _).bind fun b => mirrors_storeIn hu b
  · exact (mirrors_storeInWord hu).bind fun _ => .pure _

end OsKernel.Elf.Paged
