import OsKernel.Elf.Paged

/-!
# What a process finds

`Holds T m s`: through the directory that is loaded a process finds the memory `m` at its
addresses, and every other process finds what it found before. The accesses of
`Elf/Paged.lean` are described in these terms, one byte at a time: a byte is read and stored
at an address of the process, or in the memory that the kernel has for itself, or the access
ends everything.

This is the step from frames to addresses. The invariants of the memory manager are about
spaces: which frame is mapped where, how often it is counted, who may write to it
(`Vmm/Space.lean`, `Vmm/Sound.lean`). A program knows nothing of them. What it finds at an
address is the byte in the frame if there is one and zero if there is none yet, as a page that
comes with the first access is a page of zeros; `shows` is that byte, and does not change when
the page comes (`Holds.accessed`). So a program cannot tell whether it has a page or is about
to get it, and no statement from here on mentions that again.

A store may have to copy a page first, since another process shares it. That the others find
what they found is the second half of `Holds`, and it is where copy on write is used:
`wp_storeByte` has it from `Backed.stored`, and what the space is after a fault from
`Vmm/Cow.lean`.

Frames may run out at any access, and a counter may be full. Then the kernel stops, or ends
the process, in the middle of what it was doing (`Starved`); of such a run it is only said
that no program has been started.
-/

set_option autoImplicit false

namespace OsKernel.Elf.Paged

open Lib Prog
open Vmm

/-! ## Addresses -/

/-- The kernel's own memory. -/
def Own (va : Word) : Prop := 0x1000 ≤ va.toNat ∧ va.toNat < VMM_FRAMES.toNat

instance (va : Word) : Decidable (Own va) := inferInstanceAs (Decidable (_ ∧ _))

theorem Own.low {va : Word} (h : Own va) : va < VMM_FRAMES := BitVec.lt_def.mpr h.2

theorem Own.kernelAddr {c : Vmm.Config} (hc : c.Valid) {va : Word} (h : Own va) : c.KernelAddr va :=
  .inl ⟨h.1, Nat.lt_of_lt_of_le h.2 hc.heapFits⟩

theorem not_low {c : Vmm.Config} {va : Word} (hu : c.UserAddr va) : ¬va < VMM_FRAMES := by
  have hge := hu.1
  rw [BitVec.le_def] at hge
  rw [BitVec.lt_def]
  have h0 : (0x80000000#32 : Word).toNat = 2147483648 := rfl
  have h1 : VMM_FRAMES.toNat = 6291456 := by decide
  omega

theorem Own.not_user {c : Vmm.Config} {va : Word} (h : Own va) : ¬c.UserAddr va :=
  fun hu => not_low hu h.low

/-! ## The state of the machine

`Holds` says that the process finds a given memory at its user addresses: a page that is not there
counts as zeros. Page faults, accesses and the handler keep this, so `exec` can be followed in
terms of bytes. -/

/-- The byte of the directory `pd` at `va`: zero where there is no page yet. -/
def shows (s : Machine) (pd va : Word) : Byte :=
  let pte := s.walk pd va
  if present pte then byteOf (s.mem (frame pte) (wordOf va)) (va.toNat % 4) else 0

/-- A kernel that has started, and one of its processes. -/
structure Setting where
  config : Vmm.Config
  κ : KernelMap
  anchor : Word → Word → Prop
  /-- the directories of all processes -/
  dirs : Finset Word
  /-- the directory of the process -/
  pd : Word
  /-- what a directory showed before -/
  old : Word → Bytes
  valid : config.Valid
  booted : ∃ s₀ a₀ n, Booted config s₀ κ a₀ n
  live : pd ∈ dirs

namespace Setting

variable {T : Setting} {va : Word}

theorem pte_user (T : Setting) (hu : T.config.UserAddr va) : T.κ.pte (pdi va) (pti va) = 0#32 := by
  obtain ⟨s₀, a₀, n, B⟩ := T.booted
  exact Refines.pte_user B T.valid hu

theorem pte_kernel (T : Setting) (hk : T.config.KernelAddr va) :
    T.κ.pte (pdi va) (pti va) ≠ 0#32 := by
  obtain ⟨s₀, a₀, n, B⟩ := T.booted
  rw [B.page _ _ (pdi_lt va) (pti_lt va) ((Config.maps_iff T.valid va).mpr hk)]
  exact (kernelEntry_mk (aligned_pageAt _ _)).ne_zero

theorem pte_none (T : Setting) (hk : ¬T.config.KernelAddr va) :
    T.κ.pte (pdi va) (pti va) = 0#32 := by
  obtain ⟨s₀, a₀, n, B⟩ := T.booted
  exact B.none _ _ (pdi_lt va) (pti_lt va) fun hm => hk ((Config.maps_iff T.valid va).mp hm)

end Setting

/-- The space `S` of all processes is in the machine. -/
structure Backed (T : Setting) (s : Machine) (S : Space) : Prop where
  sound : Sound T.κ True s S 0 T.anchor
  agrees : Agrees s S
  low : LowClear T.κ S
  dirs : S.dirs = T.dirs

structure Holds (T : Setting) (m : Bytes) (s : Machine) : Prop where
  space : ∃ S, Backed T s S
  cr3 : s.cr3 = T.pd
  own : ∀ va, T.config.UserAddr va → shows s T.pd va = m va
  others : ∀ x ∈ T.dirs, x ≠ T.pd → ∀ va, T.config.UserAddr va → shows s x va = T.old x va

variable {T : Setting} {m m' : Bytes} {s s' : Machine} {S S' : Space} {va x : Word}

theorem Backed.mem (h : Backed T s S) (hx : x ∈ T.dirs) : x ∈ S.dirs := by
  rw [h.dirs]
  exact hx

theorem Backed.live (h : Backed T s S) : T.pd ∈ S.dirs := h.mem T.live

/-- A byte, in terms of the space. -/
theorem Backed.shows (h : Backed T s S) (hx : x ∈ T.dirs) (hu : T.config.UserAddr va) :
    Paged.shows s x va = byteOf (S.data T.κ s x (pdi va) (pti va) (wordOf va)) (va.toNat % 4) := by
  have P := h.sound.shape.pteEntry (h.mem hx) (pdi_lt va) (pti_lt va)
  unfold Paged.shows Space.data
  rw [h.sound.walk h.agrees (h.mem hx)]
  dsimp only
  by_cases hp : priv (S.pte T.κ x (pdi va) (pti va)) = true
  · rw [if_pos (present_of_priv hp), if_pos hp]
  · have hzero : present (S.pte T.κ x (pdi va) (pti va)) = false := by
      obtain h0 | h0 := P.kernel (by simpa using hp)
      · rw [h0]
        rfl
      · rw [h0, T.pte_user hu]
        rfl
    rw [hzero, if_neg (by simp), if_neg hp]
    unfold byteOf
    simp

/-- The process finds a memory, and the others what they found in another machine. -/
theorem Backed.holds (h : Backed T s' S') (H : Holds T m s) (h' : Backed T s S)
    (hcr3 : s'.cr3 = T.pd)
    (hown : ∀ va, T.config.UserAddr va →
      byteOf (S'.data T.κ s' T.pd (pdi va) (pti va) (wordOf va)) (va.toNat % 4) = m' va)
    (hothers : ∀ x ∈ S.dirs, x ≠ T.pd → ∀ k, k < 1024 → ∀ l, l < 1024 →
      S'.data T.κ s' x k l = S.data T.κ s x k l) : Holds T m' s' where
  space := ⟨S', h⟩
  cr3 := hcr3
  own va hu := (h.shows T.live hu).trans (hown va hu)
  others x hx hne va hu := by
    rw [h.shows hx hu, hothers x (h'.mem hx) hne _ (pdi_lt va) _ (pti_lt va), ← h'.shows hx hu]
    exact H.others x hx hne va hu

theorem Holds.congr (H : Holds T m s) (h : ∀ va, T.config.UserAddr va → m va = m' va) :
    Holds T m' s :=
  { H with own := fun va hu => (H.own va hu).trans (h va hu) }

/-- An access changes nothing of what is found. -/
theorem Holds.accessed (H : Holds T m s) (hu : T.config.UserAddr va) {user write : Bool} :
    wp (access va user write)
      (fun ok s' => ok = true ∧ Holds T m s' ∧ ∃ S', Backed T s' S' ∧
        priv (S'.pte T.κ T.pd (pdi va) (pti va)) = true ∧ (write = true →
          writable (S'.ent T.pd (pdi va)) = true ∧
          writable (S'.pte T.κ T.pd (pdi va) (pti va)) = true))
      (fun e _ => e = .noFrames ∨ e = .refOverflow) s := by
  obtain ⟨S, h⟩ := H.space
  have hcr3 := H.cr3
  refine wp_mono (h.sound.access_user h.agrees (by rw [hcr3]; exact h.live) hu.1 (T.pte_user hu) user
    write) (fun ok s' hpost => ?_) (fun e _ he => he.imp And.left And.left)
  obtain ⟨hok, S', hs, hA, A⟩ := hpost
  have h' : Backed T s' S' := by
    refine ⟨hs, hA, fun x hx i hi j hj => ?_, A.dirs.trans h.dirs⟩
    have h0 : (0x80000000#32 : Word).toNat = 512 * 2 ^ 22 := by decide
    have hge := hu.1
    rw [BitVec.le_def] at hge
    rw [A.dirs] at hx
    rw [A.pte x hx i (by omega) j hj fun he => by
      rw [pdi_eq] at he
      omega]
    exact h.low x hx i hi j hj
  have hH : Holds T m s' := h'.holds H h (A.regs.cr3.trans hcr3)
    (fun va' hu' => by
      rw [A.data _ h.live _ (pdi_lt va') _ (pti_lt va'), ← h.shows T.live hu']
      exact H.own va' hu')
    fun x hx _ => A.data x hx
  have hpage := A.page
  have hwritable := A.writable
  rw [hcr3] at hpage hwritable
  exact ⟨hok, hH, S', h', hpage, hwritable⟩

theorem Holds.access_kernel (H : Holds T m s) (hk : T.config.KernelAddr va) {write : Bool} :
    wp (access va false write) (fun ok s' => ok = true ∧ s' = s) (fun _ _ => False) s := by
  obtain ⟨S, h⟩ := H.space
  exact h.sound.access_kernel h.agrees (by rw [H.cr3]; exact h.live) (T.pte_kernel hk)

/-! ## Ways to stop -/

/-- Frames or counters have run out. -/
def End.Starved (e : End) : Prop := e = .stop .noFrames ∨ e = .stop .refOverflow

/-- The program has not been started. -/
def End.NotStarted (e : End) : Prop := ∀ entry esp, e ≠ .leave (.user entry esp)

theorem End.Starved.notStarted {e : End} (h : e.Starved) : e.NotStarted := by
  rintro entry esp rfl
  obtain h | h := h <;> cases h

theorem notStarted_stop (e : OsKernel.Stop) : (End.stop e).NotStarted := by
  rintro entry esp h
  cases h

theorem notStarted_leave {l : Leave} (h : ∀ entry esp, l ≠ .user entry esp) :
    (End.leave l).NotStarted := fun entry esp he => h entry esp (End.leave.inj he)

/-! ## One byte

Loads and stores of a byte, at the process's addresses and at the kernel's own, and the rules that
the loops above are proved with. A store of a byte is a load and a store of a word, as the machine
of the page tables has words. -/

variable {w : World} {v : Byte} {user : Bool} {α : Type}

theorem wp_onMachine {x : K α} {Q : α → World → Prop} {E : End → World → Prop}
    (h : wp x (fun a s => Q a { w with machine := s }) (fun e s => E (.stop e) { w with machine := s })
      w.machine) : wp (onMachine x) Q E w := by
  unfold wp onMachine at *
  cases hx : x w.machine with
  | ok a s =>
    rw [hx] at h
    exact h
  | error e s =>
    rw [hx] at h
    exact h

/-- What is read at an address of the process. -/
theorem wp_loadByte (H : Holds T m w.machine) (hu : T.config.UserAddr va) :
    wp (loadByte user va) (fun b w' => b = m va ∧ Holds T m w'.machine ∧ w'.kernel = w.kernel)
      (fun e _ => e.Starved) w := by
  unfold loadByte
  rw [wp_bind]
  refine wp_onMachine (wp_mono (H.accessed hu) (fun ok s' h => ?_) fun e _ he =>
    he.imp (congrArg End.stop) (congrArg End.stop))
  obtain ⟨rfl, H', S', h', hpage, -⟩ := h
  rw [if_pos rfl, wp_bind, wp_get, wp_pure, if_neg (not_low hu)]
  refine ⟨?_, H', rfl⟩
  have hpresent : present (s'.walk T.pd va) = true := by
    rw [h'.sound.walk h'.agrees h'.live]
    exact present_of_priv hpage
  rw [← H'.own va hu]
  unfold byteAt shows
  dsimp only
  rw [H'.cr3, if_pos hpresent]

/-- What is read from the kernel's own memory. -/
theorem wp_loadByte_own (H : Holds T m w.machine) (hva : Own va) :
    wp (loadByte false va) (fun b w' => b = w.kernel va ∧ w' = w) (fun _ _ => False) w := by
  unfold loadByte
  rw [wp_bind]
  refine wp_onMachine (wp_mono (H.access_kernel (hva.kernelAddr T.valid)) (fun ok s' h => ?_)
    fun _ _ hf => hf)
  obtain ⟨rfl, rfl⟩ := h
  rw [if_pos rfl, wp_bind, wp_get, wp_pure, if_pos hva.low]
  exact ⟨rfl, rfl⟩

/-- Below `0x80000000` the kernel reads nothing that it does not map. -/
theorem wp_loadByte_nowhere (H : Holds T m w.machine) (hlow : va < 0x80000000#32)
    (hk : ¬T.config.KernelAddr va) :
    wp (loadByte false va) (fun _ _ => False) (fun e _ => e.NotStarted) w := by
  obtain ⟨S, h⟩ := H.space
  unfold loadByte
  rw [wp_bind]
  exact wp_onMachine (wp_mono (h.sound.access_nowhere h.agrees (by rw [H.cr3]; exact h.live) h.low
    hlow (T.pte_none hk)) (fun _ _ hf => hf.elim) fun e _ _ => notStarted_stop e)

/-- Whatever the kernel reads, nothing of what is found changes. -/
theorem holds_loadByte (H : Holds T m w.machine) :
    wp (loadByte false va) (fun _ w' => Holds T m w'.machine) (fun e _ => e.NotStarted) w := by
  by_cases hu : T.config.UserAddr va
  · exact wp_mono (wp_loadByte H hu) (fun _ _ h => h.2.1) fun _ _ he => he.notStarted
  by_cases hk : T.config.KernelAddr va
  · unfold loadByte
    rw [wp_bind]
    refine wp_onMachine (wp_mono (H.access_kernel hk) (fun ok s' h => ?_) fun _ _ hf => hf.elim)
    obtain ⟨rfl, rfl⟩ := h
    rw [if_pos rfl]
    exact H
  · have hlow : va < 0x80000000#32 := BitVec.not_le.mp fun hge => hu ⟨hge, hk⟩
    exact wp_mono (wp_loadByte_nowhere H hlow hk) (fun _ _ hf => hf.elim) fun _ _ he => he

theorem byteOf_withByte (x : Word) (v : Byte) {i j : Nat} (hj : j < 4) :
    byteOf (withByte x i v) j = Function.update (byteOf x) i v j := byteOf_le32 _ hj

/-- The byte arrives at its address and at no other one. -/
theorem Backed.stored (h : Backed T s S) (H : Holds T m s)
    (hp : priv (S.pte T.κ T.pd (pdi va) (pti va)) = true)
    (hwd : writable (S.ent T.pd (pdi va)) = true)
    (hwp : writable (S.pte T.κ T.pd (pdi va) (pti va)) = true) :
    Holds T (overlay m va 1 fun _ => v) (setByte s va v) := by
  have hset : setByte s va v = s.put (frame (S.pte T.κ T.pd (pdi va) (pti va))) (wordOf va)
      (withByte (S.data T.κ s T.pd (pdi va) (pti va) (wordOf va)) (va.toNat % 4) v) := by
    unfold setByte Space.data
    rw [if_pos hp]
    dsimp only
    rw [H.cr3, h.sound.walk h.agrees h.live]
  rw [hset]
  obtain ⟨hs, hA, hself, hother⟩ := h.sound.store_page h.agrees h.live (pdi_lt va) (pti_lt va) hp
    hwd hwp (wordOf va)
    (withByte (S.data T.κ s T.pd (pdi va) (pti va) (wordOf va)) (va.toNat % 4) v)
  have h' : Backed T _ S := ⟨hs, hA, h.low, h.dirs⟩
  refine h'.holds H h H.cr3 (fun va' hu' => ?_) fun x hx hne k hk l hl =>
    hother x hx k hk l hl fun he => hne he.1
  have hwas := H.own va' hu'
  rw [h.shows T.live hu'] at hwas
  rw [overlay_one]
  -- another page, another word of the page, another byte of the word, or the byte itself
  by_cases hpage : pdi va' = pdi va ∧ pti va' = pti va
  · rw [hpage.1, hpage.2] at hwas ⊢
    rw [hself]
    by_cases hw : wordOf va' = wordOf va
    · rw [hw] at hwas
      rw [hw, Function.update_self, byteOf_withByte _ _ (Nat.mod_lt _ (by decide))]
      have hdiv := (word_eq_iff va va').mpr ⟨hpage, hw⟩
      by_cases hlow : va'.toNat % 4 = va.toNat % 4
      · have heq : va' = va := BitVec.eq_of_toNat_eq (by omega)
        rw [heq, Function.update_self, Function.update_self]
      · have hne : va' ≠ va := fun he => hlow (by rw [he])
        rw [Function.update_of_ne hlow, Function.update_of_ne hne]
        exact hwas
    · have hne : va' ≠ va := fun he => hw (by rw [he])
      rw [Function.update_of_ne hw, Function.update_of_ne hne]
      exact hwas
  · have hne : va' ≠ va := fun he => hpage (by rw [he]; exact ⟨rfl, rfl⟩)
    rw [hother T.pd h.live _ (pdi_lt va') _ (pti_lt va') fun he => hpage he.2,
      Function.update_of_ne hne]
    exact hwas

/-- A byte is stored at an address of the process. -/
theorem wp_storeByte (H : Holds T m w.machine) (hu : T.config.UserAddr va) :
    wp (storeByte va v)
      (fun _ w' => Holds T (overlay m va 1 fun _ => v) w'.machine ∧ w'.kernel = w.kernel)
      (fun e _ => e.Starved) w := by
  unfold storeByte
  rw [wp_bind]
  refine wp_onMachine (wp_mono (H.accessed hu) (fun ok s' h => ?_) fun e _ he =>
    he.imp (congrArg End.stop) (congrArg End.stop))
  obtain ⟨rfl, H', S', h', hpage, hwritable⟩ := h
  obtain ⟨hwd, hwp⟩ := hwritable rfl
  rw [if_pos rfl, wp_modify, if_neg (not_low hu)]
  exact ⟨h'.stored H' hpage hwd hwp, rfl⟩

/-- A byte is stored in the kernel's own memory. -/
theorem wp_storeByte_own (H : Holds T m w.machine) (hva : Own va) :
    wp (storeByte va v) (fun _ w' => w' = { w with kernel := overlay w.kernel va 1 fun _ => v })
      (fun _ _ => False) w := by
  unfold storeByte
  rw [wp_bind]
  refine wp_onMachine (wp_mono (H.access_kernel (hva.kernelAddr T.valid)) (fun ok s' h => ?_)
    fun _ _ hf => hf)
  obtain ⟨rfl, rfl⟩ := h
  rw [if_pos rfl, wp_modify, if_pos hva.low]

end OsKernel.Elf.Paged
