import OsKernel.Vmm.Isolation

/-!
# One memory access of a process

What the processor does with an access and the page-fault handler together: the access is
tried, and if the tables refuse it the handler runs, with the error code that says why, and
the access is tried once more. `access` returns whether it went through.

At a user address the second try always succeeds, and the process finds there what it would
have found: the handler maps a zeroed page where there is none, and copies a page that may not
be written. Elsewhere an access in user mode ends the process.

This is where error codes come from. `Machine.faultCode` is what a processor reports, so a
fault taken here is truthful by construction, and what `Vmm/System.lean` has as a condition on
runs is a lemma about this function. `Vmm/Cow.lean` and `Elf/Paged.lean` are built on `access`
and say nothing about error codes.

The kernel obeys the write permission too (CR0.WP is set), which is why it takes faults on
behalf of a process when it writes to a buffer. It does not obey the user bit; and an access
of the kernel at an address where nothing is mapped, below `0x80000000`, ends the process as
well.

There is no loop. A processor would try until it succeeds; that two tries are enough is a
result, and where they are not `access` returns `false`.
-/

set_option autoImplicit false

namespace OsKernel

open Lib Vmm

/-- The error code of a refused access: was there a page, was it a write, was it user mode? -/
def Machine.faultCode (s : Machine) (pd va : Word) (user write : Bool) : Word :=
  (if present (s.walk pd va) then 0x1#32 else 0#32) ||| (if write then 0x2#32 else 0#32) |||
    (if user then 0x4#32 else 0#32)

namespace Vmm

open Lib.Prog K PhysMem

def tryAccess (va : Word) (user write : Bool) : K Bool := do
  let s ← get
  return s.allows s.cr3 va user write

def access (va : Word) (user write : Bool) : K Bool := do
  if ← tryAccess va user write then
    return true
  else
    let s ← get
    pageFault va (s.faultCode s.cr3 va user write)
    tryAccess va user write

/-- An address at which processes may have pages. -/
def Config.UserAddr (c : Config) (va : Word) : Prop := 0x80000000#32 ≤ va ∧ ¬ c.KernelAddr va

instance (c : Config) (va : Word) : Decidable (c.KernelAddr va) :=
  inferInstanceAs (Decidable (_ ∨ _))

instance (c : Config) (va : Word) : Decidable (c.UserAddr va) :=
  inferInstanceAs (Decidable (_ ∧ _))

variable {κ : KernelMap} {s s' : Machine} {S S' : Space} {n : Nat} {a : Word → Word → Prop}
  {va : Word} {user write : Bool}

/-! ## Error codes -/

section codes

theorem faultCode_one : s.faultCode s.cr3 va user write &&& 0x1#32 = 0#32 ↔
    present (s.walk s.cr3 va) = false := by
  unfold Machine.faultCode
  cases present (s.walk s.cr3 va) <;> cases user <;> cases write <;> decide

theorem faultCode_three : s.faultCode s.cr3 va user write &&& 0x3#32 = 0x3#32 ↔
    present (s.walk s.cr3 va) = true ∧ write = true := by
  unfold Machine.faultCode
  cases present (s.walk s.cr3 va) <;> cases user <;> cases write <;> decide

theorem faultCode_five : s.faultCode s.cr3 va user write &&& 0x7#32 = 0x5#32 ↔
    present (s.walk s.cr3 va) = true ∧ write = false ∧ user = true := by
  unfold Machine.faultCode
  cases present (s.walk s.cr3 va) <;> cases user <;> cases write <;> decide

/-- At an address the handler looks at, a fault is refused unless there is no page, or it is a
write. -/
theorem not_refused (hva : 0x80000000#32 ≤ va)
    (h : present (s.walk s.cr3 va) = true → write = true) :
    ¬ Refused va (s.faultCode s.cr3 va user write) := by
  rintro (h0 | h5 | hlt | ⟨h3, h1⟩)
  · rw [h0] at hva
    exact absurd hva (by decide)
  · obtain ⟨hP, hw, -⟩ := faultCode_five.mp h5
    rw [h hP] at hw
    exact absurd hw (by simp)
  · exact absurd hva (BitVec.not_le.mpr hlt)
  · have hP : present (s.walk s.cr3 va) = true := by
      by_contra hn
      rw [faultCode_one.mpr (by simpa using hn)] at h1
      exact absurd h1 (by decide)
    exact h3 (faultCode_three.mpr ⟨hP, h hP⟩)

end codes

/-! ## An access at a user address -/

/-- The process whose directory is loaded has a page at `va`, writable if asked for; nobody finds
anything else than before. -/
structure Accessed (κ : KernelMap) (s : Machine) (S : Space) (va : Word) (write : Bool)
    (s' : Machine) (S' : Space) : Prop where
  dirs : S'.dirs = S.dirs
  dying : S'.dying = S.dying
  regs : SameMap s s'
  page : priv (S'.pte κ s.cr3 (pdi va) (pti va)) = true
  writable : write = true → Vmm.writable (S'.ent s.cr3 (pdi va)) = true ∧
    Vmm.writable (S'.pte κ s.cr3 (pdi va) (pti va)) = true
  pte : ∀ x ∈ S.dirs, ∀ k, k < 1024 → ∀ l, l < 1024 → ¬ (x = s.cr3 ∧ k = pdi va ∧ l = pti va) →
    S'.pte κ x k l = S.pte κ x k l
  data : ∀ x ∈ S.dirs, ∀ k, k < 1024 → ∀ l, l < 1024 → S'.data κ s' x k l = S.data κ s x k l

/-- What the tables say about an access, in terms of the space. -/
theorem Sound.allows_iff (h : Sound κ True s S n a) (hA : Agrees s S) (hd : s.cr3 ∈ S.dirs)
    (hκ : κ.pte (pdi va) (pti va) = 0#32) : s.allows s.cr3 va user write = true ↔
    priv (S.pte κ s.cr3 (pdi va) (pti va)) = true ∧ (write = true →
      Vmm.writable (S.ent s.cr3 (pdi va)) = true ∧
      Vmm.writable (S.pte κ s.cr3 (pdi va) (pti va)) = true) := by
  have T := h.shape.pteEntry hd (pdi_lt va) (pti_lt va)
  have E := h.shape.dirEntry _ hd _ (pdi_lt va)
  have hpriv : present (S.pte κ s.cr3 (pdi va) (pti va)) = true →
      priv (S.pte κ s.cr3 (pdi va) (pti va)) = true := by
    intro hP
    by_contra hn
    obtain h0 | h0 := T.kernel (by simpa using hn)
    · rw [h0] at hP
      exact absurd hP (by simp)
    · rw [h0, hκ] at hP
      exact absurd hP (by simp)
  unfold Machine.allows
  rw [h.walk hA hd, hA _ (Space.mem_nodes.mpr (Or.inl hd)) _ (pdi_lt va)]
  constructor
  · intro hall
    simp only [Bool.and_eq_true, Bool.or_eq_true, Bool.not_eq_true'] at hall
    refine ⟨hpriv hall.1.1.2, fun hw => ?_⟩
    obtain hf | hww := hall.2
    · rw [hw] at hf
      exact absurd hf (by simp)
    · exact hww
  · rintro ⟨hp, hw⟩
    have hpd := Shape.priv_of_pte hp
    simp only [Bool.and_eq_true, Bool.or_eq_true, Bool.not_eq_true']
    refine ⟨⟨⟨present_of_priv hpd, present_of_priv hp⟩, Or.inr ⟨E.user hpd, T.user hp⟩⟩, ?_⟩
    cases write with
    | false => exact Or.inl rfl
    | true => exact Or.inr (hw rfl)

theorem Sound.access_user (h : Sound κ True s S n a) (hA : Agrees s S) (hd : s.cr3 ∈ S.dirs)
    (hva : 0x80000000#32 ≤ va) (hκ : κ.pte (pdi va) (pti va) = 0#32) (user write : Bool) :
    wp (access va user write)
      (fun ok s' => ok = true ∧ ∃ S', Sound κ True s' S' (n - 4) a ∧ Agrees s' S' ∧
        Accessed κ s S va write s' S')
      (fun e _ => NoTable κ S n s.cr3 (pdi va) e) s := by
  have T := h.shape.pteEntry hd (pdi_lt va) (pti_lt va)
  have hwalk := h.walk hA hd va
  unfold access tryAccess
  simp only [wp_bind, wp_get, wp_pure, wp_ite]
  by_cases hall : s.allows s.cr3 va user write = true
  · rw [if_pos hall]
    obtain ⟨hp, hw⟩ := (h.allows_iff hA hd hκ).mp hall
    exact ⟨trivial, S, h.weaken (Nat.sub_le n 4), hA, {
      dirs := rfl
      dying := rfl
      regs := ⟨rfl, rfl, rfl, rfl⟩
      page := hp
      writable := hw
      pte := fun _ _ _ _ _ _ _ => rfl
      data := fun _ _ _ _ _ _ => rfl }⟩
  rw [if_neg hall]
  -- a page that is there is refused for one reason only: it is shared, and this is a write
  have hshared : present (s.walk s.cr3 va) = true → write = true ∧
      Vmm.writable (S.pte κ s.cr3 (pdi va) (pti va)) = false := by
    intro hP
    have hp : priv (S.pte κ s.cr3 (pdi va) (pti va)) = true := by
      by_contra hn
      rw [hwalk] at hP
      obtain h0 | h0 := T.kernel (by simpa using hn)
      · rw [h0] at hP
        exact absurd hP (by simp)
      · rw [h0, hκ] at hP
        exact absurd hP (by simp)
    have hno : ¬ (write = true → Vmm.writable (S.ent s.cr3 (pdi va)) = true ∧
        Vmm.writable (S.pte κ s.cr3 (pdi va) (pti va)) = true) := fun hw =>
      hall ((h.allows_iff hA hd hκ).mpr ⟨hp, hw⟩)
    obtain ⟨hw, hno⟩ := Classical.not_imp.mp hno
    refine ⟨hw, ?_⟩
    by_contra hwr
    refine hno ⟨?_, by simpa using hwr⟩
    by_contra hwe
    have := h.shape.readOnly_pte hd (pdi_lt va) (pti_lt va) hp (by simpa using hwe)
    rw [this] at hwr
    exact hwr rfl
  have hR : ¬ Refused va (s.faultCode s.cr3 va user write) :=
    not_refused hva fun hP => (hshared hP).1
  refine wp_mono (h.pageFault_spec hA hd va _ fun _ _ _ => hκ) (fun _ s' hok => ?_)
    (fun e s' he => ?_)
  · obtain ⟨-, -, S', h', hA', M⟩ := hok
    have hcr3 : s'.cr3 = s.cr3 := M.regs.cr3
    have hsame : S'.data κ s' s.cr3 (pdi va) (pti va) = S.data κ s s.cr3 (pdi va) (pti va) := by
      refine M.same ?_
      by_cases hP : present (s.walk s.cr3 va) = true
      · exact Or.inl (faultCode_three.mpr ⟨hP, (hshared hP).1⟩)
      · rw [hwalk] at hP
        exact Or.inr (not_priv_of_absent (by simpa using hP))
    refine ⟨(h'.allows_iff hA' (by rw [hcr3, M.dirs]; exact hd) hκ).mpr ?_, S', h', hA', {
      dirs := M.dirs
      dying := M.dying
      regs := M.regs
      page := M.page
      writable := fun _ => ⟨M.isWritable, M.pageWritable⟩
      pte := M.pte
      data := fun x hx k hk l hl => ?_ }⟩
    · rw [hcr3]
      exact ⟨M.page, fun _ => ⟨M.isWritable, M.pageWritable⟩⟩
    · by_cases he : x = s.cr3 ∧ k = pdi va ∧ l = pti va
      · rw [he.1, he.2.1, he.2.2]
        exact hsame
      · exact M.data x hx k hk l hl he
  · obtain hN | ⟨-, ⟨hR', -⟩ | ⟨-, C⟩⟩ := he
    · exact hN
    · exact absurd hR' hR
    · have := (hshared (by rw [hwalk]; exact C.present)).2
      rw [C.writable] at this
      exact absurd this (by simp)

/-! ## An access elsewhere -/

/-- The process has been killed, and nobody finds anything else than before. -/
structure Died (κ : KernelMap) (s : Machine) (S : Space) (s' : Machine) (S' : Space) : Prop where
  dirs : S'.dirs = S.dirs
  dying : S'.dying = S.dying
  pte : ∀ x ∈ S.dirs, ∀ k, k < 1024 → ∀ l, l < 1024 → S'.pte κ x k l = S.pte κ x k l
  data : ∀ x ∈ S.dirs, ∀ k, k < 1024 → ∀ l, l < 1024 → S'.data κ s' x k l = S.data κ s x k l

/-- Below `0x80000000` there is what the kernel maps and nothing else. -/
theorem Sound.walk_low (h : Sound κ True s S n a) (hA : Agrees s S) {d : Word} (hd : d ∈ S.dirs)
    (hL : LowClear κ S) (hlow : va < 0x80000000#32) (hκ : κ.pte (pdi va) (pti va) = 0#32) :
    s.walk d va = 0#32 := by
  have hi : pdi va < 512 := by
    rw [BitVec.lt_def] at hlow
    have h0 : (0x80000000#32 : Word).toNat = 512 * 2 ^ 22 := by decide
    rw [pdi_eq]
    omega
  rw [h.walk hA hd]
  obtain h0 | h0 := (h.shape.pteEntry hd (pdi_lt va) (pti_lt va)).kernel (hL _ hd _ hi _ (pti_lt va))
  · exact h0
  · exact h0.trans hκ

theorem Sound.access_other (h : Sound κ True s S n a) (hA : Agrees s S) (hd : s.cr3 ∈ S.dirs)
    (hL : LowClear κ S) (hva : va < 0x80000000#32 ∨ κ.pte (pdi va) (pti va) ≠ 0#32)
    (write : Bool) :
    wp (access va true write) (fun _ _ => False)
      (fun e s' => NoTable κ S n s.cr3 (pdi va) e ∧ write = true ∨ e = .exit (-1) ∧
        ∃ S', Sound κ True s' S' (n - 4) a ∧ Agrees s' S' ∧ Died κ s S s' S') s := by
  have hwalk := h.walk hA hd va
  have hkern : κ.pte (pdi va) (pti va) ≠ 0#32 →
      KernelEntry (S.pte κ s.cr3 (pdi va) (pti va)) := fun hne => by
    rw [h.shape.pte_kernel trivial hd (pdi_lt va) (pti_lt va) hne]
    exact (κ.pteOk _ _).resolve_left hne
  -- no page there carries the user bit
  have huser : Vmm.user (s.walk s.cr3 va) = false := by
    by_cases hne : κ.pte (pdi va) (pti va) = 0#32
    · rw [h.walk_low hA hd hL (hva.resolve_right (not_not.mpr hne)) hne]
      rfl
    · rw [hwalk]
      exact (hkern hne).user
  have hall : ¬ s.allows s.cr3 va true write = true := by
    unfold Machine.allows
    simp [huser]
  have hself : Died κ s S s S := ⟨rfl, rfl, fun _ _ _ _ _ _ => rfl, fun _ _ _ _ _ _ => rfl⟩
  unfold access tryAccess
  simp only [wp_bind, wp_get, wp_pure, wp_ite]
  rw [if_neg hall]
  by_cases hR : Refused va (s.faultCode s.cr3 va true write)
  · refine wp_mono (pageFault_refused (s := s) hR) (fun _ _ hf => hf.elim) (fun e s' he => ?_)
    obtain ⟨rfl, rfl⟩ := he
    exact Or.inr ⟨rfl, S, h.weaken (Nat.sub_le n 4), hA, hself⟩
  · have hge : 0x80000000#32 ≤ va := by
      rw [← BitVec.not_lt]
      exact fun hlt => hR (Or.inr (Or.inr (Or.inl hlt)))
    have hne := hva.resolve_left (BitVec.not_lt.mpr hge)
    have hP : present (s.walk s.cr3 va) = true := by
      rw [hwalk]
      exact (hkern hne).present
    have hw : write = true := by
      cases write with
      | true => rfl
      | false => exact absurd (Or.inr (Or.inl (faultCode_five.mpr ⟨hP, rfl, rfl⟩))) hR
    refine wp_mono (h.pageFault_spec hA hd va _ fun _ _ h0 => ?_) (fun _ s' hok => ?_)
      (fun e s' he => ?_)
    · rw [faultCode_one.mp h0] at hP
      exact absurd hP (by simp)
    · obtain ⟨-, hro, -⟩ := hok
      have := hro (faultCode_three.mpr ⟨hP, hw⟩) (hkern hne).present
      rw [(hkern hne).writable] at this
      exact absurd this (by simp)
    · obtain hN | ⟨rfl, ⟨hR', -⟩ | ⟨-, C⟩⟩ := he
      · exact Or.inl ⟨hN, hw⟩
      · exact absurd hR' hR
      · obtain ⟨p, S', h', hA', P⟩ := C.left
        exact Or.inr ⟨rfl, S', h', hA', P.dirs, P.dying, P.pte, P.data⟩

/-- The kernel reaches its own pages without a page fault. -/
theorem Sound.access_kernel (h : Sound κ True s S n a) (hA : Agrees s S) (hd : s.cr3 ∈ S.dirs)
    (hne : κ.pte (pdi va) (pti va) ≠ 0#32) :
    wp (access va false write) (fun ok s' => ok = true ∧ s' = s) (fun _ _ => False) s := by
  unfold access tryAccess
  simp only [wp_bind, wp_get, wp_pure, wp_ite]
  rw [if_pos (h.allows_kernel hA hd hne)]
  exact ⟨trivial, trivial⟩

/-- What the kernel does not map below `0x80000000` it does not reach, either. -/
theorem Sound.access_nowhere (h : Sound κ True s S n a) (hA : Agrees s S) (hd : s.cr3 ∈ S.dirs)
    (hL : LowClear κ S) (hlow : va < 0x80000000#32) (hκ : κ.pte (pdi va) (pti va) = 0#32) :
    wp (access va user write) (fun _ _ => False) (fun e _ => e = .exit (-1)) s := by
  have hall : ¬s.allows s.cr3 va user write = true := by
    unfold Machine.allows
    simp [h.walk_low hA hd hL hlow hκ]
  unfold access tryAccess
  simp only [wp_bind, wp_get, wp_pure, wp_ite]
  rw [if_neg hall]
  exact wp_mono (pageFault_refused (s := s) (Or.inr (Or.inr (Or.inl hlow))))
    (fun _ _ hf => hf.elim) fun _ _ he => he.1

/-! ## A store through a writable page -/

variable {b : Prop} {d : Word} {i j : Nat}

/-- A page that its directory may write is nobody else's, and nothing else of its own. -/
theorem Shape.page_unique (H : Shape κ b S) (hd : d ∈ S.dirs) (hi : i < 1024) (hj : j < 1024)
    (hp : priv (S.pte κ d i j) = true) (hwd : Vmm.writable (S.ent d i) = true)
    (hwp : Vmm.writable (S.pte κ d i j) = true) {x : Word} {k l : Nat} (hx : x ∈ S.dirs)
    (hk : k < 1024) (hl : l < 1024) (hq : priv (S.pte κ x k l) = true)
    (hf : frame (S.pte κ x k l) = frame (S.pte κ d i j)) : x = d ∧ k = i ∧ l = j := by
  have hpd := Shape.priv_of_pte hp
  have hqd := Shape.priv_of_pte hq
  rw [Space.pte_of_priv hpd] at hp hwp hf
  rw [Space.pte_of_priv hqd] at hq hf
  have htab := (H.dirEntry d hd i hi).table hpd
  have htab' := (H.dirEntry x hx k hk).table hqd
  have htn : frame (S.ent d i) ∈ S.nodes := Space.mem_nodes.mpr (Or.inr htab)
  obtain ⟨ht, hlj⟩ := Space.only htn hj hp ((H.tableEntry _ htab j hj).single hp hwp)
    (Space.mem_nodes.mpr (Or.inr htab')) hl hq hf
  have hdn : d ∈ S.nodes := Space.mem_nodes.mpr (Or.inl hd)
  obtain ⟨hxd, hki⟩ := Space.only hdn hi hpd ((H.dirEntry d hd i hi).single hpd hwd)
    (Space.mem_nodes.mpr (Or.inl hx)) hk hqd ht
  exact ⟨hxd, hki, hlj⟩

theorem Sound.store_page (h : Sound κ b s S n a) (hA : Agrees s S) (hd : d ∈ S.dirs) (hi : i < 1024)
    (hj : j < 1024) (hp : priv (S.pte κ d i j) = true) (hwd : Vmm.writable (S.ent d i) = true)
    (hwp : Vmm.writable (S.pte κ d i j) = true) (w : Nat) (v : Word) :
    Sound κ b (s.put (frame (S.pte κ d i j)) w v) S n a ∧
    Agrees (s.put (frame (S.pte κ d i j)) w v) S ∧
    S.data κ (s.put (frame (S.pte κ d i j)) w v) d i j =
      Function.update (S.data κ s d i j) w v ∧
    ∀ x ∈ S.dirs, ∀ k, k < 1024 → ∀ l, l < 1024 → ¬ (x = d ∧ k = i ∧ l = j) →
      S.data κ (s.put (frame (S.pte κ d i j)) w v) x k l = S.data κ s x k l := by
  have T := h.shape.pteEntry hd hi hj
  refine ⟨h.store (h.shape.held_pte hd hi hj hp) (T.notKernel hp) _, fun x hx k hk => ?_, ?_,
    fun x hx k hk l hl hne => ?_⟩
  · have hxp : x ≠ frame (S.pte κ d i j) := by
      rintro rfl
      exact T.page hp hx
    show Function.update s.mem _ _ x k = _
    rw [Function.update_of_ne hxp]
    exact hA x hx k hk
  · unfold Space.data
    rw [if_pos hp, if_pos hp]
    exact Function.update_self ..
  · refine Space.data_of_pte rfl fun hq => Function.update_of_ne (fun hf => hne ?_) _ _
    exact h.shape.page_unique hd hi hj hp hwd hwp hx hk hl hq hf

end Vmm

end OsKernel
