import OsKernel.PhysMem.Account
import OsKernel.Vmm.Model
import OsKernel.Lib.RefGraph

/-!
# Address spaces as a reference graph

The abstract state of `vmm.cc`. A `Space` lists the live page directories and the live private
page tables with their entries; a private entry is a reference to a frame, a directory is a
root, and `count` is the number of references a frame has. References that are in no entry,
because the running operation holds them or because some earlier one forgot them, are in
`extra`.

`Shape` is the invariant: which frame a private entry may name, and which of them are shared.
A writable entry names a frame that nothing else names, at both levels; this is what makes a
store through it invisible to everyone else.

The kernel operations are built of few moves (`give`, `take`, `put`, `addTable`, `addDir`,
`dropDir`, `kill`, `bury`), and each move has one lemma about `count` and one about `Shape`.

## Why a graph

The code never looks at a directory as a function from addresses to pages. It walks two levels
of words, takes a reference here and gives one back there, and is right if the numbers come
out. A model that begins with the function has to say for each step of a loop which function
that is; most of the intermediate states have none. A graph has a count in every state, so the
invariant holds at each iteration, with what the loop has in hand as `extra`. What a directory
shows as a function is computed from the graph where it is wanted (`Vmm/View.lean`).

`extra` also carries what is lost. A frame that the page-fault handler takes before it kills
the process is a reference that no entry accounts for and never will. It is no violation of
the invariant, and `Vmm/Leak.lean` counts it.

`κ : KernelMap` is the part that does not change: the directory that `global_init` built, with
its tables. Those tables are named by every directory and counted by none, so they are not
nodes. The definition asks for nothing but what `Vmm/Boot.lean` proves of it.
-/

set_option autoImplicit false

namespace OsKernel.Vmm

open Lib PhysMem

/-! ## The kernel's own map -/

/-- An entry of the kernel's map: `G | RW | P` and no user bit. -/
structure KernelEntry (e : Word) : Prop where
  present : present e = true
  writable : writable e = true
  global : global e = true
  user : user e = false
  nonGlobal : nonGlobal e = false

theorem KernelEntry.priv {e : Word} (h : KernelEntry e) : priv e = false := by
  unfold Vmm.priv
  rw [h.nonGlobal, Bool.and_false]

theorem KernelEntry.ne_zero {e : Word} (h : KernelEntry e) : e ≠ 0#32 := by
  rintro rfl
  exact absurd h.present (by simp)

/-- What `global_init` has built: the directory `kpd`, its tables, and their entries. It never
changes afterwards. -/
structure KernelMap where
  kpd : Word
  /-- Frames taken with `unsafe_alloc_frame`. -/
  raw : Finset Word
  /-- Tables that `map` took with `alloc_frame`; they keep their first reference. -/
  counted : Finset Word
  pde : Nat → Word
  pte : Nat → Nat → Word
  kpdRaw : kpd ∈ raw
  disj : ∀ p ∈ counted, p ∉ raw
  pdeOk : ∀ i, pde i = 0#32 ∨ KernelEntry (pde i)
  pteOk : ∀ i j, pte i j = 0#32 ∨ KernelEntry (pte i j)
  /-- A table lies in a frame of the kernel and is not empty; without a table there is no entry. -/
  tableIn : ∀ i, pde i ≠ 0#32 → frame (pde i) ∈ raw ∪ counted
  used : ∀ i, pde i ≠ 0#32 → ∃ j, j < 1024 ∧ pte i j ≠ 0#32
  noTable : ∀ i j, pde i = 0#32 → pte i j = 0#32

namespace KernelMap

variable {κ : KernelMap}

def frames (κ : KernelMap) : Finset Word := κ.raw ∪ κ.counted

theorem pde_priv (i : Nat) : priv (κ.pde i) = false := by
  obtain h | h := κ.pdeOk i
  · rw [h]; rfl
  · exact h.priv

theorem pte_priv (i j : Nat) : priv (κ.pte i j) = false := by
  obtain h | h := κ.pteOk i j
  · rw [h]; rfl
  · exact h.priv

theorem pde_present_iff {i : Nat} : present (κ.pde i) = true ↔ κ.pde i ≠ 0#32 := by
  obtain h | h := κ.pdeOk i
  · simp [h]
  · simp [h.present, h.ne_zero]

theorem pte_present_iff {i j : Nat} : present (κ.pte i j) = true ↔ κ.pte i j ≠ 0#32 := by
  obtain h | h := κ.pteOk i j
  · simp [h]
  · simp [h.present, h.ne_zero]

end KernelMap

/-- The kernel's map lies in memory. -/
structure KernelMem (s : Machine) (κ : KernelMap) : Prop where
  kpd : s.kpd = κ.kpd
  pde : ∀ i, i < 1024 → s.mem κ.kpd i = κ.pde i
  pte : ∀ i j, i < 1024 → j < 1024 → κ.pde i ≠ 0#32 → s.mem (frame (κ.pde i)) j = κ.pte i j

/-! ## Spaces

A space is the tables as sets and functions: which frames are directories and which are tables,
what their entries are, and which references the running operation has in hand. The count of a
frame is a sum over all this and not a field, so it cannot be out of step with the entries. -/

structure Space where
  /-- Live page directories of processes. -/
  dirs : Finset Word
  /-- Live private page tables. -/
  tables : Finset Word
  /-- Entry `i` of a directory or table. -/
  ent : Word → Nat → Word
  /-- The directory slot a table serves. -/
  home : Word → Nat
  /-- References that no entry accounts for. -/
  extra : Word → Nat
  /-- Tables whose last reference is gone and whose `destroy_pt` runs. -/
  dying : Finset Word

/-- The frame a private entry refers to. -/
def refOf (e : Word) : Option Word := if priv e then some (frame e) else none

theorem refOf_eq_some {e p : Word} : refOf e = some p ↔ priv e = true ∧ frame e = p := by
  unfold refOf
  split <;> simp_all

theorem refOf_eq_none {e : Word} : refOf e = none ↔ priv e = false := by
  unfold refOf
  split <;> simp_all

@[simp] theorem refOf_zero : refOf 0#32 = none := by decide

theorem refOf_protect (e : Word) : refOf (protect e) = refOf e := by
  unfold refOf
  rw [priv_protect, frame_protect]

namespace Space

variable (κ : KernelMap) (S : Space)

def nodes : Finset Word := S.dirs ∪ S.tables

def ref (x : Word) (i : Nat) : Option Word := refOf (S.ent x i)

/-- The number of places that name `p`: private entries of live directories and tables, and `p`
itself if it is a live directory. -/
def names (p : Word) : Nat := RefGraph.names 1024 S.dirs S.nodes S.ref p

/-- The number of references to `p`. -/
def count (p : Word) : Nat := S.names p + S.extra p

/-- Who holds each frame, by the counts. -/
def own (p : Word) : Own :=
  if p ∈ κ.raw then .raw
  else if p ∈ S.dying then .dying
  else match S.count p with
    | 0 => .none
    | k + 1 => .counted k

variable {κ S}

theorem mem_nodes {x : Word} : x ∈ S.nodes ↔ x ∈ S.dirs ∨ x ∈ S.tables := Finset.mem_union

theorem names_pos_iff {p : Word} : 0 < S.names p ↔
    p ∈ S.dirs ∨ ∃ x ∈ S.nodes, ∃ i, i < 1024 ∧ priv (S.ent x i) = true ∧ frame (S.ent x i) = p := by
  unfold names ref
  rw [RefGraph.names_pos_iff]
  simp only [refOf_eq_some]

theorem names_pos_of_ent {x : Word} {i : Nat} (hx : x ∈ S.nodes) (hi : i < 1024)
    (h : priv (S.ent x i) = true) : 0 < S.names (frame (S.ent x i)) :=
  names_pos_iff.mpr (Or.inr ⟨x, hx, i, hi, h, rfl⟩)

theorem names_pos_of_dir {d : Word} (hd : d ∈ S.dirs) : 0 < S.names d :=
  names_pos_iff.mpr (Or.inl hd)

theorem own_congr {S' : Space} (hc : ∀ p, S'.count p = S.count p) (hd : S'.dying = S.dying) :
    S'.own κ = S.own κ := by
  funext p
  unfold own
  rw [hc p, hd]

theorem held_iff {p : Word} : Held (S.own κ) p ↔ p ∈ κ.raw ∨ p ∈ S.dying ∨ 0 < S.count p := by
  unfold Held own
  by_cases hr : p ∈ κ.raw
  · simp [hr]
  by_cases hd : p ∈ S.dying
  · simp [hr, hd]
  rw [if_neg hr, if_neg hd]
  cases S.count p <;> simp [hr, hd]

theorem held_of_count_le {S' : Space} {p : Word} (h : Held (S.own κ) p)
    (hc : ∀ q, S.count q ≤ S'.count q) (hd : S'.dying = S.dying) : Held (S'.own κ) p := by
  rw [held_iff] at h ⊢
  rw [hd]
  exact h.imp id (Or.imp id fun h0 => h0.trans_le (hc p))

theorem own_eq_counted {p : Word} {k : Nat} (hr : p ∉ κ.raw) (hd : p ∉ S.dying)
    (h : S.count p = k + 1) : S.own κ p = .counted k := by
  unfold own
  rw [if_neg hr, if_neg hd, h]

theorem own_eq_dying {p : Word} (hr : p ∉ κ.raw) (hd : p ∈ S.dying) : S.own κ p = .dying := by
  unfold own
  rw [if_neg hr, if_pos hd]

theorem own_eq_none_iff {p : Word} :
    S.own κ p = .none ↔ p ∉ κ.raw ∧ p ∉ S.dying ∧ S.count p = 0 := by
  have h := @held_iff κ S p
  unfold Held at h
  constructor
  · intro h0
    by_contra hne
    refine h.mpr ?_ h0
    by_contra hall
    push Not at hall
    exact hne ⟨hall.1, hall.2.1, by omega⟩
  · rintro ⟨hr, hd, hc⟩
    by_contra hne
    obtain h1 | h1 | h1 := h.mp hne
    · exact hr h1
    · exact hd h1
    · omega

/-- Who holds each frame changes with the count of one frame. -/
theorem own_update {S' : Space} {p : Word} {o : Own} (hc : ∀ q, q ≠ p → S'.count q = S.count q)
    (hd : ∀ q, q ≠ p → (q ∈ S'.dying ↔ q ∈ S.dying)) (hp : S'.own κ p = o) :
    S'.own κ = Function.update (S.own κ) p o := by
  funext q
  by_cases hq : q = p
  · rw [hq, Function.update_self, hp]
  · rw [Function.update_of_ne hq]
    unfold own
    simp only [hc q hq, hd q hq]

/-! ## Moves

What an operation can do to a space in one step. Between moves the running operation may hold
references (`extra`), so a move takes a reference from it or leaves one with it, and the counts of
frames come out right in between as well as at the end. -/

/-- The running operation gets a reference to `p`. -/
def give (S : Space) (p : Word) : Space :=
  { S with extra := Function.update S.extra p (S.extra p + 1) }

/-- The running operation gives a reference to `p` up. -/
def take (S : Space) (p : Word) : Space :=
  { S with extra := Function.update S.extra p (S.extra p - 1) }

/-- Entry `i` of `x` becomes `e`. The reference it held before is now held by the running
operation, and the one it holds now no longer is. -/
def put (S : Space) (x : Word) (i : Nat) (e : Word) : Space :=
  { S with
    ent := Function.update S.ent x (Function.update (S.ent x) i e)
    extra := fun q => S.extra q + (if S.ref x i = some q then 1 else 0) -
      (if refOf e = some q then 1 else 0) }

/-- The frame `t` becomes a private table for slot `i`, with the kernel's entries. -/
def addTable (S : Space) (κ : KernelMap) (t : Word) (i : Nat) : Space :=
  { S with
    tables := insert t S.tables
    ent := Function.update S.ent t (κ.pte i)
    home := Function.update S.home t i }

/-- The frame `d` becomes a page directory, with the kernel's entries. -/
def addDir (S : Space) (κ : KernelMap) (d : Word) : Space :=
  { S with
    dirs := insert d S.dirs
    ent := Function.update S.ent d κ.pde
    extra := Function.update S.extra d (S.extra d - 1) }

/-- `d` is no longer a page directory; what it referred to is left to the running operation. -/
def dropDir (S : Space) (d : Word) : Space :=
  { S with
    dirs := S.dirs.erase d
    extra := fun q => S.extra q + RefGraph.hits 1024 (S.ref d) q + if q = d then 1 else 0 }

/-- The last reference to the table `t` is gone; what it referred to is left to `destroy_pt`. -/
def kill (S : Space) (t : Word) : Space :=
  { S with
    tables := S.tables.erase t
    extra := fun q => Function.update S.extra t 0 q + RefGraph.hits 1024 (S.ref t) q
    dying := insert t S.dying }

/-- The table `t` is given back. -/
def bury (S : Space) (t : Word) : Space := { S with dying := S.dying.erase t }

section fields

variable {x y p t d e : Word} {i j : Nat}

@[simp] theorem give_dirs : (S.give p).dirs = S.dirs := rfl
@[simp] theorem give_tables : (S.give p).tables = S.tables := rfl
@[simp] theorem give_ent : (S.give p).ent = S.ent := rfl
@[simp] theorem give_home : (S.give p).home = S.home := rfl
@[simp] theorem give_dying : (S.give p).dying = S.dying := rfl
@[simp] theorem take_dirs : (S.take p).dirs = S.dirs := rfl
@[simp] theorem take_tables : (S.take p).tables = S.tables := rfl
@[simp] theorem take_ent : (S.take p).ent = S.ent := rfl
@[simp] theorem take_home : (S.take p).home = S.home := rfl
@[simp] theorem take_dying : (S.take p).dying = S.dying := rfl
@[simp] theorem put_dirs : (S.put x i e).dirs = S.dirs := rfl
@[simp] theorem put_tables : (S.put x i e).tables = S.tables := rfl
@[simp] theorem put_home : (S.put x i e).home = S.home := rfl
@[simp] theorem put_dying : (S.put x i e).dying = S.dying := rfl
@[simp] theorem addTable_dirs : (S.addTable κ t i).dirs = S.dirs := rfl
@[simp] theorem addTable_tables : (S.addTable κ t i).tables = insert t S.tables := rfl
@[simp] theorem addTable_extra : (S.addTable κ t i).extra = S.extra := rfl
@[simp] theorem addTable_dying : (S.addTable κ t i).dying = S.dying := rfl
@[simp] theorem addDir_dirs : (S.addDir κ d).dirs = insert d S.dirs := rfl
@[simp] theorem addDir_tables : (S.addDir κ d).tables = S.tables := rfl
@[simp] theorem addDir_home : (S.addDir κ d).home = S.home := rfl
@[simp] theorem addDir_dying : (S.addDir κ d).dying = S.dying := rfl
@[simp] theorem dropDir_dirs : (S.dropDir d).dirs = S.dirs.erase d := rfl
@[simp] theorem dropDir_tables : (S.dropDir d).tables = S.tables := rfl
@[simp] theorem dropDir_ent : (S.dropDir d).ent = S.ent := rfl
@[simp] theorem dropDir_home : (S.dropDir d).home = S.home := rfl
@[simp] theorem dropDir_dying : (S.dropDir d).dying = S.dying := rfl
@[simp] theorem kill_dirs : (S.kill t).dirs = S.dirs := rfl
@[simp] theorem kill_tables : (S.kill t).tables = S.tables.erase t := rfl
@[simp] theorem kill_ent : (S.kill t).ent = S.ent := rfl
@[simp] theorem kill_home : (S.kill t).home = S.home := rfl
@[simp] theorem kill_dying : (S.kill t).dying = insert t S.dying := rfl
@[simp] theorem bury_dirs : (S.bury t).dirs = S.dirs := rfl
@[simp] theorem bury_tables : (S.bury t).tables = S.tables := rfl
@[simp] theorem bury_ent : (S.bury t).ent = S.ent := rfl
@[simp] theorem bury_home : (S.bury t).home = S.home := rfl
@[simp] theorem bury_extra : (S.bury t).extra = S.extra := rfl
@[simp] theorem bury_dying : (S.bury t).dying = S.dying.erase t := rfl

theorem give_extra_self : (S.give p).extra p = S.extra p + 1 := Function.update_self ..

theorem give_extra_ne (h : y ≠ p) : (S.give p).extra y = S.extra y := Function.update_of_ne h ..

theorem take_extra_self : (S.take p).extra p = S.extra p - 1 := Function.update_self ..

theorem take_extra_ne (h : y ≠ p) : (S.take p).extra y = S.extra y := Function.update_of_ne h ..

theorem put_extra (q : Word) : (S.put x i e).extra q = S.extra q +
    (if S.ref x i = some q then 1 else 0) - (if refOf e = some q then 1 else 0) := rfl

theorem put_ent_self : (S.put x i e).ent x i = e := by
  show Function.update S.ent x _ x i = e
  rw [Function.update_self, Function.update_self]

theorem put_ent_other (h : j ≠ i) : (S.put x i e).ent x j = S.ent x j := by
  show Function.update S.ent x _ x j = _
  rw [Function.update_self, Function.update_of_ne h]

theorem put_ent_ne (h : y ≠ x) : (S.put x i e).ent y = S.ent y := Function.update_of_ne h ..

theorem addTable_ent_self : (S.addTable κ t i).ent t = κ.pte i := Function.update_self ..

theorem addTable_ent_ne (h : y ≠ t) : (S.addTable κ t i).ent y = S.ent y :=
  Function.update_of_ne h ..

theorem addTable_home_self : (S.addTable κ t i).home t = i := Function.update_self ..

theorem addTable_home_ne (h : y ≠ t) : (S.addTable κ t i).home y = S.home y :=
  Function.update_of_ne h ..

theorem addDir_ent_self : (S.addDir κ d).ent d = κ.pde := Function.update_self ..

theorem addDir_ent_ne (h : y ≠ d) : (S.addDir κ d).ent y = S.ent y := Function.update_of_ne h ..

theorem addDir_extra_self : (S.addDir κ d).extra d = S.extra d - 1 := Function.update_self ..

theorem addDir_extra_ne (h : y ≠ d) : (S.addDir κ d).extra y = S.extra y :=
  Function.update_of_ne h ..

theorem dropDir_extra (q : Word) : (S.dropDir d).extra q =
    S.extra q + RefGraph.hits 1024 (S.ref d) q + if q = d then 1 else 0 := rfl

theorem kill_extra (q : Word) : (S.kill t).extra q =
    Function.update S.extra t 0 q + RefGraph.hits 1024 (S.ref t) q := rfl

theorem take_nodes : (S.take p).nodes = S.nodes := rfl

theorem addTable_nodes : (S.addTable κ t i).nodes = insert t S.nodes := by
  ext z
  simp only [mem_nodes, addTable_dirs, addTable_tables, Finset.mem_insert]
  tauto

theorem addDir_nodes : (S.addDir κ d).nodes = insert d S.nodes := by
  ext z
  simp only [mem_nodes, addDir_dirs, addDir_tables, Finset.mem_insert]
  tauto

theorem dropDir_nodes (hdt : d ∉ S.tables) : (S.dropDir d).nodes = S.nodes.erase d := by
  ext z
  simp only [mem_nodes, dropDir_dirs, dropDir_tables, Finset.mem_erase]
  constructor
  · rintro (⟨h1, h2⟩ | h)
    · exact ⟨h1, Or.inl h2⟩
    · exact ⟨by rintro rfl; exact hdt h, Or.inr h⟩
  · rintro ⟨h1, h2 | h2⟩
    · exact Or.inl ⟨h1, h2⟩
    · exact Or.inr h2

theorem kill_nodes (htd : t ∉ S.dirs) : (S.kill t).nodes = S.nodes.erase t := by
  ext z
  simp only [mem_nodes, kill_dirs, kill_tables, Finset.mem_erase]
  constructor
  · rintro (h | ⟨h1, h2⟩)
    · exact ⟨by rintro rfl; exact htd h, Or.inl h⟩
    · exact ⟨h1, Or.inr h2⟩
  · rintro ⟨h1, h2 | h2⟩
    · exact Or.inl h2
    · exact Or.inr ⟨h1, h2⟩

end fields

/-! ### What the moves do to the counts -/

theorem count_give (p q : Word) : (S.give p).count q = S.count q + if q = p then 1 else 0 := by
  show S.names q + (Function.update S.extra p (S.extra p + 1)) q = _
  unfold count
  by_cases hq : q = p
  · rw [hq, Function.update_self, if_pos rfl]
    omega
  · rw [Function.update_of_ne hq, if_neg hq]
    omega

theorem count_take {p : Word} (hp : 0 < S.extra p) (q : Word) :
    (S.take p).count q + (if q = p then 1 else 0) = S.count q := by
  show S.names q + (Function.update S.extra p (S.extra p - 1)) q + _ = _
  unfold count
  by_cases hq : q = p
  · rw [hq, Function.update_self, if_pos rfl]
    omega
  · rw [Function.update_of_ne hq, if_neg hq]
    omega

/-- Overwriting an entry changes nobody's count. -/
theorem count_put {x e : Word} {i : Nat} (hx : x ∈ S.nodes) (hi : i < 1024)
    (he : ∀ q, refOf e = some q → 0 < S.extra q ∨ S.ref x i = some q) (q : Word) :
    (S.put x i e).count q = S.count q := by
  have hset := @RefGraph.names_set Word _ 1024 S.dirs S.nodes S.ref (S.put x i e).ref x i hx hi
    (refOf e)
    (by unfold ref; rw [put_ent_self])
    (fun j _ hj => by unfold ref; rw [put_ent_other hj])
    (fun y _ hy j _ => by unfold ref; rw [put_ent_ne hy]) q
  have hn : (S.put x i e).names q = RefGraph.names 1024 S.dirs S.nodes (S.put x i e).ref q := rfl
  have hn' : S.names q = RefGraph.names 1024 S.dirs S.nodes S.ref q := rfl
  unfold count
  rw [put_extra, hn, hn']
  by_cases he' : refOf e = some q
  · have h0 := he q he'
    rw [if_pos he'] at hset ⊢
    by_cases ho : S.ref x i = some q
    · rw [if_pos ho] at hset ⊢
      omega
    · rw [if_neg ho] at hset ⊢
      have := h0.resolve_right ho
      omega
  · rw [if_neg he'] at hset ⊢
    omega

/-- A new table refers to nothing yet. -/
theorem count_addTable {t : Word} {i : Nat} (ht : t ∉ S.nodes) (q : Word) :
    (S.addTable κ t i).count q = S.count q := by
  have hold : ∀ y ∈ S.nodes, ∀ j, j < 1024 → (S.addTable κ t i).ref y j = S.ref y j := by
    intro y hy j _
    unfold ref
    rw [addTable_ent_ne (by rintro rfl; exact ht hy)]
  have hnew : ∀ j, j < 1024 → (S.addTable κ t i).ref t j = none := by
    intro j _
    unfold ref
    rw [addTable_ent_self, refOf_eq_none]
    exact κ.pte_priv i j
  show RefGraph.names 1024 S.dirs (S.addTable κ t i).nodes (S.addTable κ t i).ref q + S.extra q = _
  rw [addTable_nodes, RefGraph.names_insert ht, RefGraph.names_congr hold,
    RefGraph.hits_none hnew]
  rfl

/-- A new directory is referred to by being one, instead of by the running operation. -/
theorem count_addDir {d : Word} (hd : d ∉ S.nodes) (he : 0 < S.extra d) (q : Word) :
    (S.addDir κ d).count q = S.count q := by
  have hold : ∀ y ∈ S.nodes, ∀ j, j < 1024 → (S.addDir κ d).ref y j = S.ref y j := by
    intro y hy j _
    unfold ref
    rw [addDir_ent_ne (by rintro rfl; exact hd hy)]
  have hnew : ∀ j, j < 1024 → (S.addDir κ d).ref d j = none := by
    intro j _
    unfold ref
    rw [addDir_ent_self, refOf_eq_none]
    exact κ.pde_priv j
  have hroot : d ∉ S.dirs := fun h => hd (mem_nodes.mpr (Or.inl h))
  show RefGraph.names 1024 (insert d S.dirs) (S.addDir κ d).nodes (S.addDir κ d).ref q +
    (S.addDir κ d).extra q = _
  rw [addDir_nodes, RefGraph.names_insert hd, RefGraph.names_insert_root hroot,
    RefGraph.names_congr hold, RefGraph.hits_none hnew]
  show S.names q + _ + _ + _ = S.names q + S.extra q
  by_cases hq : q = d
  · rw [hq, addDir_extra_self, if_pos rfl]
    omega
  · rw [addDir_extra_ne hq, if_neg hq]
    omega

theorem count_dropDir {d : Word} (hd : d ∈ S.dirs) (hdt : d ∉ S.tables) (q : Word) :
    (S.dropDir d).count q = S.count q := by
  have h1 := @RefGraph.names_erase Word _ 1024 S.dirs S.nodes S.ref d (mem_nodes.mpr (Or.inl hd)) q
  have h2 := @RefGraph.names_erase_root Word _ 1024 S.dirs (S.nodes.erase d) S.ref d hd q
  show RefGraph.names 1024 (S.dirs.erase d) (S.dropDir d).nodes S.ref q + (S.dropDir d).extra q =
      RefGraph.names 1024 S.dirs S.nodes S.ref q + S.extra q
  rw [dropDir_nodes hdt, dropDir_extra]
  omega

theorem count_kill {t : Word} (ht : t ∈ S.tables) (htd : t ∉ S.dirs) (hn : S.names t = 0)
    (q : Word) : (S.kill t).count q = if q = t then 0 else S.count q := by
  have htn : t ∈ S.nodes := mem_nodes.mpr (Or.inr ht)
  have h1 := @RefGraph.names_erase Word _ 1024 S.dirs S.nodes S.ref t htn q
  have hns : S.names q = RefGraph.names 1024 S.dirs S.nodes S.ref q := rfl
  show RefGraph.names 1024 S.dirs (S.kill t).nodes S.ref q + (S.kill t).extra q = _
  rw [kill_nodes htd, kill_extra]
  by_cases hq : q = t
  · have hnt : S.names t = RefGraph.names 1024 S.dirs S.nodes S.ref t := rfl
    rw [hq, Function.update_self, if_pos rfl]
    rw [hq] at h1
    omega
  · rw [Function.update_of_ne hq, if_neg hq]
    unfold count
    omega

end Space

end OsKernel.Vmm
