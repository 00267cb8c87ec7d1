import OsKernel.Vmm.Safety

/-!
# What `write_protect` does to memory

The write permission of a directory entry is taken away before its table is scanned, and given
back when the scan meets an entry of the kernel. `Scanned` follows the scan of one table,
`Quieted` the whole loop, entry by entry: which words change, and to what, depends on what the
directory held before and not on the order of the entries. Nothing is assumed but that no
table is the directory itself.

`Vmm/Fork.lean` has the loop as well, with an invariant about spaces. That one serves fork: it
says what the loop is for, and needs a directory of the invariant. This one is about words. It
says exactly which of them are other words afterwards, which the space does not know, and from
it that a second call changes nothing. A table may even serve two slots here.

`quiet` is what becomes of an entry of a table; `GlobalWritable` is an entry at which the scan
puts the permission back. Only the last line of the inner loop makes the order matter at all,
and `Mixed` says that it does not: the directory entry keeps its permission if the table has
such an entry anywhere.

In the last section the two meet: in a state that the operations can reach, a process can
write none of its pages afterwards, and the kernel all of its own.
-/

set_option autoImplicit false

namespace OsKernel.Vmm

open Lib Lib.Prog K PhysMem

/-- What `write_protect` makes of an entry of a table. -/
def quiet (e : Word) : Word := if priv e = true ∧ writable e = true then protect e else e

/-- An entry at which a directory entry gets its write permission back. -/
def GlobalWritable (e : Word) : Prop :=
  present e = true ∧ writable e = true ∧ nonGlobal e = false

/-- Slot `i` of `d` is one that `write_protect` looks into. -/
def Hot (s : Machine) (d : Word) (i : Nat) : Prop :=
  priv (s.mem d i) = true ∧ writable (s.mem d i) = true

/-- The table in slot `i` of `d`. -/
def tableAt (s : Machine) (d : Word) (i : Nat) : Word := frame (s.mem d i)

/-- The table in slot `i` has an entry that keeps the directory entry writable. -/
def Mixed (s : Machine) (d : Word) (i : Nat) : Prop :=
  ∃ j, j < 1024 ∧ GlobalWritable (s.mem (tableAt s d i) j)

section quiet

variable {e : Word}

theorem quiet_of (h : priv e = true ∧ writable e = true) : quiet e = protect e := if_pos h

theorem quiet_not (h : ¬(priv e = true ∧ writable e = true)) : quiet e = e := if_neg h

@[simp] theorem priv_quiet : priv (quiet e) = priv e := by
  unfold quiet
  split
  · exact priv_protect e
  · rfl

@[simp] theorem quiet_quiet : quiet (quiet e) = quiet e := by
  refine quiet_not fun h => ?_
  by_cases he : priv e = true ∧ writable e = true
  · rw [quiet_of he, writable_protect, he.2] at h
    exact absurd h.2 (by simp)
  · rw [quiet_not he] at h
    exact he h

theorem quiet_of_not_priv (h : priv e = false) : quiet e = e :=
  quiet_not fun he => absurd (he.1.symm.trans h) (by simp)

theorem writable_quiet (h : priv e = true) : writable (quiet e) = false := by
  by_cases hw : writable e = true
  · rw [quiet_of ⟨h, hw⟩, writable_protect, hw]
    rfl
  · rw [quiet_not fun he => hw he.2]
    simpa using hw

theorem GlobalWritable.not_priv (h : GlobalWritable e) : priv e = false := by
  unfold priv
  rw [h.2.2, Bool.and_false]

theorem globalWritable_quiet : GlobalWritable (quiet e) ↔ GlobalWritable e := by
  by_cases hp : priv e = true
  · refine ⟨fun h => ?_, fun h => ?_⟩
    · have hq := h.not_priv
      rw [priv_quiet, hp] at hq
      exact absurd hq (by simp)
    · exact absurd (hp.symm.trans h.not_priv) (by simp)
  · rw [quiet_of_not_priv (by simpa using hp)]

end quiet

variable {s s' : Machine} {d t : Word} {k j : Nat}

/-! ## One table

The scan of one table, in the words of memory alone: no spaces and no counts. `quiet` is what an
entry should become, and the directory entry at any moment is one of two words, which of them
depending on the entries seen so far. -/

/-- Slot `k` of `d`, with the table `t`, was writable in `s`, and the scan is at entry `j`. -/
structure Scanned (s : Machine) (d t : Word) (k j : Nat) (s' : Machine) : Prop where
  regs : s' = { s with mem := s'.mem, tlb := s'.tlb }
  table : ∀ l, s'.mem t l = if l < j then quiet (s.mem t l) else s.mem t l
  mixed : (∃ l, l < j ∧ GlobalWritable (s.mem t l)) → s'.mem d k = s.mem d k
  plain : (∀ l, l < j → ¬GlobalWritable (s.mem t l)) → s'.mem d k = protect (s.mem d k)
  slots : ∀ i, i ≠ k → s'.mem d i = s.mem d i
  other : ∀ x, x ≠ d → x ≠ t → s'.mem x = s.mem x
  tlb : (∀ l, l < j → quiet (s.mem t l) = s.mem t l) → s'.tlb = s.tlb

namespace Scanned

theorem zero (hdt : t ≠ d) : Scanned s d t k 0 (s.put d k (protect (s.mem d k))) where
  regs := rfl
  table l := by
    rw [if_neg (Nat.not_lt_zero l)]
    exact congrFun (Function.update_of_ne hdt _ _) l
  mixed := fun ⟨l, hl, _⟩ => absurd hl (Nat.not_lt_zero l)
  plain _ := by
    show Function.update s.mem d _ d k = _
    rw [Function.update_self, Function.update_self]
  slots i hi := by
    show Function.update s.mem d _ d i = _
    rw [Function.update_self, Function.update_of_ne hi]
  other x hx _ := Function.update_of_ne hx _ _
  tlb _ := rfl

/-- The directory entry is one of two. -/
theorem slot (I : Scanned s d t k j s') :
    s'.mem d k = s.mem d k ∨ s'.mem d k = protect (s.mem d k) := by
  by_cases h : ∃ l, l < j ∧ GlobalWritable (s.mem t l)
  · exact .inl (I.mixed h)
  · exact .inr (I.plain fun l hl hg => h ⟨l, hl, hg⟩)

/-- The scan is past entry `j` when the table holds `quiet` of it. -/
theorem table_succ (I : Scanned s d t k j s') (l : Nat) :
    Function.update (s'.mem t) j (quiet (s.mem t j)) l =
      if l < j + 1 then quiet (s.mem t l) else s.mem t l := by
  by_cases hlj : l = j
  · rw [hlj, Function.update_self, if_pos (Nat.lt_succ_self j)]
  · rw [Function.update_of_ne hlj, I.table]
    by_cases hl : l < j
    · rw [if_pos hl, if_pos (by omega)]
    · rw [if_neg hl, if_neg (by omega)]

/-- An entry that is left alone. -/
theorem skip (I : Scanned s d t k j s') (hq : quiet (s.mem t j) = s.mem t j)
    (hg : ¬GlobalWritable (s.mem t j)) : Scanned s d t k (j + 1) s' where
  regs := I.regs
  table l := by
    have hj : s'.mem t j = quiet (s.mem t j) := by rw [I.table, if_neg (Nat.lt_irrefl j), hq]
    rw [← I.table_succ l, ← hj, Function.update_eq_self]
  mixed := by
    rintro ⟨l, hl, hgl⟩
    obtain hl | rfl := Nat.lt_succ_iff_lt_or_eq.mp hl
    · exact I.mixed ⟨l, hl, hgl⟩
    · exact absurd hgl hg
  plain h := I.plain fun l hl => h l (by omega)
  slots := I.slots
  other := I.other
  tlb h := I.tlb fun l hl => h l (by omega)

/-- A private entry loses its write permission. -/
theorem toggle (I : Scanned s d t k j s') (hdt : t ≠ d)
    (hpw : priv (s.mem t j) = true ∧ writable (s.mem t j) = true) (tlb : List TlbEntry) :
    Scanned s d t k (j + 1) { s'.put t j (protect (s.mem t j)) with tlb := tlb } where
  regs := by
    rw [I.regs]
  table l := by
    rw [← I.table_succ l, quiet_of hpw]
    exact congrFun (Function.update_self ..) l
  mixed := by
    rintro ⟨l, hl, hg⟩
    have hlj : l < j := by
      obtain hl | rfl := Nat.lt_succ_iff_lt_or_eq.mp hl
      · exact hl
      · exact absurd (hpw.1.symm.trans hg.not_priv) (by simp)
    rw [← I.mixed ⟨l, hlj, hg⟩]
    exact congrFun (Function.update_of_ne (Ne.symm hdt) _ _) k
  plain h := by
    rw [← I.plain fun l hl => h l (by omega)]
    exact congrFun (Function.update_of_ne (Ne.symm hdt) _ _) k
  slots i hi := by
    rw [← I.slots i hi]
    exact congrFun (Function.update_of_ne (Ne.symm hdt) _ _) i
  other x hx hxt := by
    rw [← I.other x hx hxt]
    exact Function.update_of_ne hxt _ _
  tlb h := by
    have hq := h j (Nat.lt_succ_self j)
    rw [quiet_of hpw] at hq
    have hw := writable_protect (s.mem t j)
    rw [hq, hpw.2] at hw
    exact absurd hw (by simp)

/-- An entry of the kernel gives the directory entry its write permission back. -/
theorem restore (I : Scanned s d t k j s') (hdt : t ≠ d) (hw : writable (s.mem d k) = true)
    (hg : GlobalWritable (s.mem t j)) :
    Scanned s d t k (j + 1) (s'.put d k (s'.mem d k ||| Flag.RW)) := by
  have hval : s'.mem d k ||| Flag.RW = s.mem d k := by
    obtain h | h := I.slot
    · rw [h, or_RW hw]
    · rw [h, protect_or_RW hw]
  have hself : (s'.put d k (s'.mem d k ||| Flag.RW)).mem d k = s.mem d k := by
    show Function.update s'.mem d _ d k = _
    rw [Function.update_self, Function.update_self, hval]
  have hq := quiet_of_not_priv hg.not_priv
  exact {
    regs := by rw [I.regs]
    table := fun l => by
      have hj : s'.mem t j = quiet (s.mem t j) := by rw [I.table, if_neg (Nat.lt_irrefl j), hq]
      rw [← I.table_succ l, ← hj, Function.update_eq_self]
      exact congrFun (Function.update_of_ne hdt _ _) l
    mixed := fun _ => hself
    plain := fun h => absurd hg (h j (Nat.lt_succ_self j))
    slots := fun i hi => by
      rw [← I.slots i hi]
      show Function.update s'.mem d _ d i = _
      rw [Function.update_self, Function.update_of_ne hi]
    other := fun x hx hxt => by
      rw [← I.other x hx hxt]
      exact Function.update_of_ne hx _ _
    tlb := fun h => I.tlb fun l hl => h l (by omega) }

/-- One entry of the table. -/
theorem step (I : Scanned s d t k j s') (hdt : t ≠ d) (hw : writable (s.mem d k) = true) (va : Word) :
    wp (do
        if (← load t j) &&& (Flag.NG ||| Flag.RW ||| Flag.P) = Flag.NG ||| Flag.RW ||| Flag.P then do
          store t j ((← load t j) ^^^ Flag.RW)
          invlpg va
        else if (← load t j) &&& (Flag.NG ||| Flag.RW ||| Flag.P) = Flag.RW ||| Flag.P then
          store d k ((← load d k) ||| Flag.RW))
      (fun _ s'' => Scanned s d t k (j + 1) s'') (fun _ _ => False) s' := by
  have hload : s'.mem t j = s.mem t j := by rw [I.table, if_neg (Nat.lt_irrefl j)]
  simp only [wp_bind, wp_load, wp_ite, wp_pure, wp_store, wp_invlpg, hload]
  by_cases hpw : priv (s.mem t j) = true ∧ writable (s.mem t j) = true
  · rw [if_pos (and_NG_RW_P.mpr hpw)]
    exact I.toggle hdt hpw _
  · rw [if_neg fun h => hpw (and_NG_RW_P.mp h)]
    by_cases hg : GlobalWritable (s.mem t j)
    · rw [if_pos (and_eq_RW_P.mpr hg)]
      exact I.restore hdt hw hg
    · rw [if_neg fun h => hg (and_eq_RW_P.mp h)]
      exact I.skip (quiet_not hpw) hg

end Scanned

/-! ## The directory

The slots are done one after the other. That no table is the directory itself is needed here,
since the stores of one slot would otherwise reach another; `Apart` is this condition, and holds
in every state that can be reached. -/

/-- Slots below `k` of `d` are done. -/
structure Quieted (s : Machine) (d : Word) (k : Nat) (s' : Machine) : Prop where
  regs : s' = { s with mem := s'.mem, tlb := s'.tlb }
  mixed : ∀ i, i < k → Hot s d i → Mixed s d i → s'.mem d i = s.mem d i
  plain : ∀ i, i < k → Hot s d i → ¬Mixed s d i → s'.mem d i = protect (s.mem d i)
  cold : ∀ i, ¬(i < k ∧ Hot s d i) → s'.mem d i = s.mem d i
  table : ∀ i, i < k → Hot s d i → ∀ j, j < 1024 →
    s'.mem (tableAt s d i) j = quiet (s.mem (tableAt s d i) j)
  word : ∀ x, x ≠ d → ∀ j, s'.mem x j = s.mem x j ∨ j < 1024 ∧ s'.mem x j = quiet (s.mem x j)
  other : ∀ x, x ≠ d → (∀ i, i < k → Hot s d i → tableAt s d i ≠ x) → s'.mem x = s.mem x
  tlb : (∀ i, i < k → Hot s d i → ∀ j, j < 1024 →
    quiet (s.mem (tableAt s d i) j) = s.mem (tableAt s d i) j) → s'.tlb = s.tlb

namespace Quieted

theorem refl : Quieted s d 0 s where
  regs := rfl
  mixed i hi := absurd hi (Nat.not_lt_zero i)
  plain i hi := absurd hi (Nat.not_lt_zero i)
  cold _ _ := rfl
  table i hi := absurd hi (Nat.not_lt_zero i)
  word _ _ _ := .inl rfl
  other _ _ _ := rfl
  tlb _ := rfl

theorem globalWritable_iff (Q : Quieted s d k s') {x : Word} (hx : x ≠ d) (j : Nat) :
    GlobalWritable (s'.mem x j) ↔ GlobalWritable (s.mem x j) := by
  obtain h | ⟨-, h⟩ := Q.word x hx j
  · rw [h]
  · rw [h, globalWritable_quiet]

theorem quiet_eq (Q : Quieted s d k s') {x : Word} (hx : x ≠ d) (j : Nat) :
    quiet (s'.mem x j) = quiet (s.mem x j) := by
  obtain h | ⟨-, h⟩ := Q.word x hx j
  · rw [h]
  · rw [h, quiet_quiet]

/-- A slot that is left alone. -/
theorem skip (Q : Quieted s d k s') (hcold : ¬Hot s d k) : Quieted s d (k + 1) s' := by
  have hlt : ∀ {i}, i < k + 1 → Hot s d i → i < k := by
    intro i hi hot
    obtain hi | rfl := Nat.lt_succ_iff_lt_or_eq.mp hi
    · exact hi
    · exact absurd hot hcold
  exact {
    regs := Q.regs
    mixed := fun i hi hot => Q.mixed i (hlt hi hot) hot
    plain := fun i hi hot => Q.plain i (hlt hi hot) hot
    cold := fun i hi => Q.cold i fun h => hi ⟨by omega, h.2⟩
    table := fun i hi hot => Q.table i (hlt hi hot) hot
    word := Q.word
    other := fun x hx h => Q.other x hx fun i hi hot => h i (by omega) hot
    tlb := fun h => Q.tlb fun i hi hot => h i (by omega) hot }

/-- A slot whose table has been scanned. -/
theorem scan {s'' : Machine} (Q : Quieted s d k s') (hot : Hot s d k) (hdt : tableAt s d k ≠ d)
    (hapart : ∀ i, i < k → Hot s d i → tableAt s d i ≠ d)
    (I : Scanned s' d (tableAt s d k) k 1024 s'') : Quieted s d (k + 1) s'' := by
  have hslot : s'.mem d k = s.mem d k := Q.cold k fun h => Nat.lt_irrefl k h.1
  have hmixed : (∃ l, l < 1024 ∧ GlobalWritable (s'.mem (tableAt s d k) l)) ↔ Mixed s d k := by
    simp only [Q.globalWritable_iff hdt]
    rfl
  have hcases : ∀ {i}, i < k + 1 → i ≠ k → i < k := fun hi hne => by omega
  have htable : ∀ j, j < 1024 → s''.mem (tableAt s d k) j = quiet (s.mem (tableAt s d k) j) := by
    intro j hj
    rw [I.table, if_pos hj, Q.quiet_eq hdt]
  refine ⟨?_, fun i hi hoti hm => ?_, fun i hi hoti hm => ?_, fun i hi => ?_, fun i hi hoti j hj => ?_,
    fun x hx j => ?_, fun x hx h => ?_, fun h => ?_⟩
  · rw [I.regs, Q.regs]
  · by_cases hik : i = k
    · subst hik
      rw [I.mixed (hmixed.mpr hm), hslot]
    · rw [I.slots i hik, Q.mixed i (hcases hi hik) hoti hm]
  · by_cases hik : i = k
    · subst hik
      rw [I.plain fun l hl hg => hm (hmixed.mp ⟨l, hl, hg⟩), hslot]
    · rw [I.slots i hik, Q.plain i (hcases hi hik) hoti hm]
  · have hik : i ≠ k := by
      rintro rfl
      exact hi ⟨Nat.lt_succ_self i, hot⟩
    rw [I.slots i hik, Q.cold i fun h => hi ⟨by omega, h.2⟩]
  · by_cases ht : tableAt s d i = tableAt s d k
    · rw [ht]
      exact htable j hj
    · have hik : i ≠ k := by
        rintro rfl
        exact ht rfl
      rw [I.other _ (hapart i (hcases hi hik) hoti) ht, Q.table i (hcases hi hik) hoti j hj]
  · by_cases hxt : x = tableAt s d k
    · subst hxt
      by_cases hj : j < 1024
      · exact .inr ⟨hj, htable j hj⟩
      · rw [I.table, if_neg hj]
        exact Q.word _ hx j
    · rw [I.other x hx hxt]
      exact Q.word x hx j
  · rw [I.other x hx fun hxt => h k (Nat.lt_succ_self k) hot hxt.symm]
    exact Q.other x hx fun i hi hoti => h i (by omega) hoti
  · have hq := h k (Nat.lt_succ_self k) hot
    rw [I.tlb fun l hl => ?_]
    · exact Q.tlb fun i hi hoti => h i (by omega) hoti
    · obtain hw | ⟨-, hw⟩ := Q.word _ hdt l
      · rw [hw, hq l hl]
      · rw [hw, quiet_quiet]

end Quieted

/-- No table of `d` is `d` itself. -/
def Apart (s : Machine) (d : Word) : Prop :=
  ∀ i, i < 1024 → present (s.mem d i) = true → tableAt s d i ≠ d

theorem writeProtect_quiets (h : Apart s d) :
    wp (writeProtect d) (fun _ s' => Quieted s d 1024 s') (fun _ _ => False) s := by
  unfold writeProtect
  refine wp_forI (n := PAGES_PER_TABLE) (I := fun k s' => Quieted s d k s')
    (fun k (hk : k < 1024) s' Q => ?_) Quieted.refl
  have hslot : s'.mem d k = s.mem d k := Q.cold k fun h => Nat.lt_irrefl k h.1
  have hapart : ∀ i, i < 1024 → Hot s d i → tableAt s d i ≠ d := fun i hi hot =>
    h i hi (present_of_priv hot.1)
  simp only [wp_bind, wp_load, wp_ite, hslot]
  by_cases hot : Hot s d k
  · rw [if_pos (and_NG_RW_P.mpr hot)]
    simp only [wp_store, Function.update_self]
    have hframe : (s.mem d k ^^^ Flag.RW) &&& Flag.MASK = tableAt s d k := frame_protect _
    rw [hframe]
    have hw' : writable (s'.mem d k) = true := by rw [hslot]; exact hot.2
    have hzero := Scanned.zero (s := s') (k := k) (hapart k hk hot)
    rw [hslot] at hzero
    refine wp_mono (wp_forI (n := PAGES_PER_TABLE)
      (I := fun j s'' => Scanned s' d (tableAt s d k) k j s'')
      (fun j _ s'' I => I.step (hapart k hk hot) hw' _) hzero) (fun _ s'' I => ?_) fun _ _ he => he
    exact Q.scan hot (hapart k hk hot) (fun i hi => hapart i (by omega)) I
  · rw [if_neg fun h' => hot (and_NG_RW_P.mp h')]
    exact Q.skip hot

/-! ## What a process can still write

From words to walks: what becomes of pages and permissions. `KernelTables` is its
condition on non-private slots. A second `write_protect` finds nothing to do, because `quiet` of a
quiet entry is itself. -/

theorem protect_or (e : Word) (h : writable e = true) : protect e ||| Flag.RW = e ||| Flag.RW := by
  rw [protect_or_RW h, or_RW h]

theorem quiet_or (e : Word) : quiet e ||| Flag.RW = e ||| Flag.RW := by
  by_cases h : priv e = true ∧ writable e = true
  · rw [quiet_of h, protect_or e h.2]
  · rw [quiet_not h]

/-- `write_protect` took the private write permissions away, and did nothing else. -/
structure OnlyProtected (pd : Word) (s s' : Machine) : Prop where
  readOnly : ∀ va, priv (s'.walk pd va) = true → s'.allows pd va false true = false
  kept : ∀ va, present (s.walk pd va) = true → priv (s.walk pd va) = false →
    s'.walk pd va = s.walk pd va ∧ s'.allows pd va false true = s.allows pd va false true
  flags : ∀ x i, s'.mem x i ||| Flag.RW = s.mem x i ||| Flag.RW
  again : writeProtect pd s' = .ok () s'

/-- The kernel's tables hold no page of a process. -/
def KernelTables (s : Machine) (d : Word) : Prop :=
  ∀ i j, i < 1024 → j < 1024 → present (s.mem d i) = true → priv (s.mem d i) = false →
    priv (s.mem (tableAt s d i) j) = false

theorem walk_present {va : Word} (h : present (s.mem d (pdi va)) = true) :
    s.walk d va = s.mem (tableAt s d (pdi va)) (pti va) := if_pos h

theorem walk_absent {va : Word} (h : ¬present (s.mem d (pdi va)) = true) : s.walk d va = 0#32 :=
  if_neg h

namespace Quieted

theorem flags (Q : Quieted s d 1024 s') (x : Word) (i : Nat) :
    s'.mem x i ||| Flag.RW = s.mem x i ||| Flag.RW := by
  by_cases hx : x = d
  · subst hx
    by_cases hot : i < 1024 ∧ Hot s x i
    · by_cases hm : Mixed s x i
      · rw [Q.mixed i hot.1 hot.2 hm]
      · rw [Q.plain i hot.1 hot.2 hm, protect_or _ hot.2.2]
    · rw [Q.cold i hot]
  · obtain h | ⟨-, h⟩ := Q.word x hx i
    · rw [h]
    · rw [h, quiet_or]

/-- A directory entry keeps its flags and its table. -/
theorem pde (Q : Quieted s d 1024 s') (i : Nat) :
    present (s'.mem d i) = present (s.mem d i) ∧ priv (s'.mem d i) = priv (s.mem d i) ∧
      tableAt s' d i = tableAt s d i := by
  unfold tableAt
  by_cases hot : i < 1024 ∧ Hot s d i
  · by_cases hm : Mixed s d i
    · rw [Q.mixed i hot.1 hot.2 hm]
      exact ⟨rfl, rfl, rfl⟩
    · rw [Q.plain i hot.1 hot.2 hm]
      exact ⟨present_protect _, priv_protect _, frame_protect _⟩
  · rw [Q.cold i hot]
    exact ⟨rfl, rfl, rfl⟩

theorem priv_word (Q : Quieted s d k s') {x : Word} (hx : x ≠ d) (j : Nat) :
    priv (s'.mem x j) = priv (s.mem x j) := by
  obtain h | ⟨-, h⟩ := Q.word x hx j
  · rw [h]
  · rw [h, priv_quiet]

theorem apart (Q : Quieted s d 1024 s') (h : Apart s d) : Apart s' d := by
  intro i hi hp
  obtain ⟨hpr, -, ht⟩ := Q.pde i
  rw [ht]
  exact h i hi (hpr ▸ hp)

/-- The second time there is nothing left to do. -/
theorem again {s'' : Machine} (Q : Quieted s d 1024 s') (h : Apart s d)
    (Q' : Quieted s' d 1024 s'') : s'' = s' := by
  have hot : ∀ i, i < 1024 → Hot s' d i → Hot s d i ∧ Mixed s d i := by
    intro i hi hot'
    by_cases hoti : Hot s d i
    · refine ⟨hoti, by_contra fun hm => ?_⟩
      have hw := hot'.2
      rw [Q.plain i hi hoti hm, writable_protect, hoti.2] at hw
      exact absurd hw (by simp)
    · have hcold := Q.cold i fun h' => hoti h'.2
      unfold Hot at hot'
      rw [hcold] at hot'
      exact absurd hot' hoti
  have hquiet : ∀ i, i < 1024 → Hot s' d i → ∀ j, j < 1024 →
      quiet (s'.mem (tableAt s' d i) j) = s'.mem (tableAt s' d i) j := by
    intro i hi hot' j hj
    rw [(Q.pde i).2.2, Q.table i hi (hot i hi hot').1 j hj, quiet_quiet]
  have hmixed : ∀ i, i < 1024 → Hot s' d i → Mixed s' d i := by
    intro i hi hot'
    obtain ⟨hoti, j, hj, hg⟩ := hot i hi hot'
    refine ⟨j, hj, ?_⟩
    rw [(Q.pde i).2.2]
    exact (Q.globalWritable_iff (h i hi (present_of_priv hoti.1)) j).mpr hg
  have hmem : s''.mem = s'.mem := by
    funext x i
    by_cases hx : x = d
    · subst hx
      by_cases hoti : i < 1024 ∧ Hot s' x i
      · exact Q'.mixed i hoti.1 hoti.2 (hmixed i hoti.1 hoti.2)
      · exact Q'.cold i hoti
    · by_cases ht : ∃ k, k < 1024 ∧ Hot s' d k ∧ tableAt s' d k = x
      · obtain ⟨k, hk, hotk, rfl⟩ := ht
        obtain hw | ⟨hi, hw⟩ := Q'.word _ hx i
        · exact hw
        · rw [hw, hquiet k hk hotk i hi]
      · rw [Q'.other x hx fun k hk hotk hkx => ht ⟨k, hk, hotk, hkx⟩]
  rw [Q'.regs, hmem, Q'.tlb hquiet]

theorem readOnly (Q : Quieted s d 1024 s') (h : Apart s d) (hk : KernelTables s d) {va : Word}
    (hp : priv (s'.walk d va) = true) : s'.allows d va false true = false := by
  obtain ⟨hpr, hpriv, ht⟩ := Q.pde (pdi va)
  have hi := pdi_lt va
  by_cases hpd : present (s'.mem d (pdi va)) = true
  case neg =>
    rw [walk_absent hpd] at hp
    exact absurd hp (by decide)
  have hpd' : present (s.mem d (pdi va)) = true := hpr ▸ hpd
  have hx := h _ hi hpd'
  rw [walk_present hpd, ht, Q.priv_word hx] at hp
  have hpde : priv (s.mem d (pdi va)) = true := by
    by_contra hno
    have hnone := hk _ _ hi (pti_lt va) hpd' (by simpa using hno)
    exact absurd (hp.symm.trans hnone) (by simp)
  have hone : writable (s'.mem d (pdi va)) = false ∨ writable (s'.walk d va) = false := by
    by_cases hw : writable (s.mem d (pdi va)) = true
    · -- the table has been scanned
      right
      rw [walk_present hpd, ht, Q.table _ hi ⟨hpde, hw⟩ _ (pti_lt va), writable_quiet hp]
    · left
      rw [Q.cold _ fun hot => hw hot.2.2]
      simpa using hw
  unfold Machine.allows
  rcases hone with hone | hone <;> simp [hone]

theorem kept (Q : Quieted s d 1024 s') (h : Apart s d) {va : Word}
    (hpr : present (s.walk d va) = true) (hnp : priv (s.walk d va) = false) :
    s'.walk d va = s.walk d va ∧ s'.allows d va false true = s.allows d va false true := by
  obtain ⟨hpresent, -, ht⟩ := Q.pde (pdi va)
  have hi := pdi_lt va
  have hpd : present (s.mem d (pdi va)) = true := by
    by_contra hno
    rw [walk_absent hno] at hpr
    exact absurd hpr (by decide)
  have hx := h _ hi hpd
  have hwalk : s'.walk d va = s.walk d va := by
    rw [walk_present hpd] at hnp ⊢
    rw [walk_present (hpresent ▸ hpd), ht]
    obtain hw | ⟨-, hw⟩ := Q.word _ hx (pti va)
    · exact hw
    · rw [hw, quiet_of_not_priv hnp]
  refine ⟨hwalk, ?_⟩
  have hwrite : (writable (s'.mem d (pdi va)) && writable (s.walk d va)) =
      (writable (s.mem d (pdi va)) && writable (s.walk d va)) := by
    by_cases hot : Hot s d (pdi va)
    case neg => rw [Q.cold _ fun h' => hot h'.2]
    by_cases hm : Mixed s d (pdi va)
    · rw [Q.mixed _ hi hot hm]
    -- no entry of this table that is not private is writable
    · have hro : writable (s.walk d va) = false := by
        by_contra hw
        refine hm ⟨_, pti_lt va, ?_⟩
        rw [walk_present hpd] at hpr hnp hw
        unfold priv at hnp
        rw [hpr, Bool.true_and] at hnp
        exact ⟨hpr, by simpa using hw, hnp⟩
      rw [hro, Bool.and_false, Bool.and_false]
  unfold Machine.allows
  simp only [hwalk, hpresent, hwrite, Bool.not_false, Bool.true_or, Bool.not_true, Bool.false_or]

theorem onlyProtected (Q : Quieted s d 1024 s') (h : Apart s d) (hk : KernelTables s d) :
    OnlyProtected d s s' := by
  refine ⟨fun va hp => Q.readOnly h hk hp, fun va hpr hnp => Q.kept h hpr hnp, Q.flags, ?_⟩
  · obtain ⟨_, s'', hrun, Q'⟩ := wp_returns (writeProtect_quiets (Q.apart h))
    rw [hrun, Q.again h Q']

end Quieted

/-! ## Every reachable state -/

section reachable

variable {κ : KernelMap} {b : Prop} {a : Word → Word → Prop} {σ : System} {S : Space}

theorem Good.apart (G : Good κ b a σ S) (hd : d ∈ σ.live) : Apart σ.machine d := by
  intro i hi hp heq
  have hd' : d ∈ S.dirs := by rw [G.dirs]; exact hd
  have hdn : d ∈ S.nodes := Space.mem_nodes.mpr (Or.inl hd')
  have E := G.sound.shape.dirEntry d hd' i hi
  unfold tableAt at heq
  rw [G.agrees d hdn i hi] at hp heq
  by_cases hpriv : priv (S.ent d i) = true
  · exact G.sound.shape.disj d hd' (heq ▸ E.table hpriv)
  · have hne : κ.pde i ≠ 0#32 := by
      rw [← E.kernel (by simpa using hpriv)]
      intro h0
      rw [h0] at hp
      exact absurd hp (by simp)
    have hin := κ.tableIn i hne
    rw [← E.kernel (by simpa using hpriv), heq] at hin
    exact G.sound.shape.kernelNodes d hdn hin

theorem Good.kernelTables (G : Good κ b a σ S) (hd : d ∈ σ.live) : KernelTables σ.machine d := by
  intro i j hi hj hp hnp
  have hd' : d ∈ S.dirs := by rw [G.dirs]; exact hd
  have hdn : d ∈ S.nodes := Space.mem_nodes.mpr (Or.inl hd')
  have E := G.sound.shape.dirEntry d hd' i hi
  unfold tableAt
  rw [G.agrees d hdn i hi] at hp hnp ⊢
  have hkernel := E.kernel hnp
  have hne : κ.pde i ≠ 0#32 := by
    rw [← hkernel]
    intro h0
    rw [h0] at hp
    exact absurd hp (by simp)
  rw [hkernel, G.sound.kernel.pte i j hi hj hne]
  exact κ.pte_priv i j

end reachable

/-- In every reachable state, whatever the operations were, `write_protect` of a live directory takes
the private write permissions and nothing else, and has nothing to do the second time. -/
theorem writeProtect_exact {c : Config} {σ₀ σ : System} (h : Started c σ₀) {ops : List Op}
    (hr : runs System.step σ₀ ops = some σ) {pd : Word} (hpd : pd ∈ σ.live) :
    ∃ s', writeProtect pd σ.machine = .ok () s' ∧ OnlyProtected pd σ.machine s' := by
  obtain ⟨κ, a, S, G⟩ := h.reaches hr
  obtain ⟨_, s', hrun, Q⟩ := wp_returns (writeProtect_quiets (G.apart hpd))
  exact ⟨s', hrun, Q.onlyProtected (G.apart hpd) (G.kernelTables hpd)⟩

/-- A process that has a child and has written to its page since: the page, which is its own again,
loses the permission. -/
theorem writeProtect_exact_small : ∃ σ₀ σ, Started .small σ₀ ∧
    runs System.step σ₀ [.create, .fault 0x605000#32 0x80000000#32 0x6#32, .fork 0x605000#32,
      .fault 0x605000#32 0x80000000#32 0x7#32] = some σ ∧ 0x605000#32 ∈ σ.live ∧
    σ.machine.allows 0x605000#32 0x80000000#32 true true = true ∧
    ∃ s', writeProtect 0x605000#32 σ.machine = .ok () s' ∧
      OnlyProtected 0x605000#32 σ.machine s' ∧
      s'.walk 0x605000#32 0x80000000#32 = 0x609405#32 ∧
      s'.allows 0x605000#32 0x80000000#32 false true = false := by
  obtain ⟨σ₀, σ, h, hr, -, ht⟩ := small_runs (fun _ _ => True) [.create,
    .fault 0x605000#32 0x80000000#32 0x6#32, .fork 0x605000#32,
    .fault 0x605000#32 0x80000000#32 0x7#32] (fun _ σ => decide (0x605000#32 ∈ σ.live) &&
      (σ.machine.allows 0x605000#32 0x80000000#32 true true &&
        (writeProtect 0x605000#32).test (fun _ s' =>
          s'.walk 0x605000#32 0x80000000#32 = 0x609405#32) σ.machine)) (by decide +kernel)
  obtain ⟨hlive, ht⟩ := Bool.and_eq_true_iff.mp ht
  obtain ⟨hallows, ht⟩ := Bool.and_eq_true_iff.mp ht
  have hlive := of_decide_eq_true hlive
  obtain ⟨s', hrun, O⟩ := writeProtect_exact h hr hlive
  obtain ⟨_, s'', hrun', hwalk⟩ := test_iff.mp ht
  rw [hrun] at hrun'
  cases hrun'
  have hwalk := of_decide_eq_true hwalk
  exact ⟨σ₀, σ, h, hr, hlive, hallows, s', hrun, O, hwalk, O.readOnly _ (by rw [hwalk]; decide)⟩

end OsKernel.Vmm
