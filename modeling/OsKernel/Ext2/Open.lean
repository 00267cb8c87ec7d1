import Mathlib.Logic.Relation
import OsKernel.Ext2.Listing

/-!
# Opening a path

`Ext2::open` goes from scan to scan: after a name that is a directory it goes on in there,
after one that is a symbolic link it starts again with the link's target. The scan does not
look at whether a record is used, so an unused one is followed wherever it comes before the
record that is looked for.

The function jumps between labels. `Conf` is what its variables hold at one of them, `turn` is
the way from there to the next time at the label, and `run` is turn after turn, so that the
control flow is a loop over configurations. How a directory is searched is a parameter of it,
and that is how the comparison is made: the same loop over the records as they are, and over
those in use.

The paths that `open` goes over are strings in the heap. What is behind the 0 of a link's
target is whatever was there; it is a parameter (`behind`), and no result depends on it.

The result about unused records is exact in the path, the directories and the links. It is in
terms of the configurations that the run without them reaches (`Reached`), as a record in a
directory that is never searched does no harm.
-/

set_option autoImplicit false

namespace OsKernel.Ext2.Dir

open Lib Prog

/-! ## The code -/

/-- `MAX_DEPTH` -/
def maxDepth : Nat := 10

/-- The number of `root`. -/
def root : Word := 2

/-- A string that was copied to the heap, and what is behind it there. -/
def string (l : List Byte) (behind : Nat → Byte) (i : Nat) : Byte :=
  if h : i < l.length then l[i] else if i = l.length then 0 else behind i

/-- `&path[n]` -/
def skip (path : Nat → Byte) (n i : Nat) : Byte := path (n + i)

/-- `depth`, `cd` and `path` at the label `next_link`. -/
structure Conf where
  depth : Nat
  cd : Word
  path : Nat → Byte

/-- From behind the check of `depth` at the label `follow_path` on. -/
def begin (depth : Nat) (cd : Word) (base : Nat → Byte) : Conf :=
  if base 0 = 47 then ⟨depth, root, skip base 1⟩ else ⟨depth, cd, base⟩

section Open

variable (v : Volume) (behind : Nat → Nat → Byte)

/-- The target of a link: what `get_symbol` puts before the 0. -/
def target (n : Inode) : List Byte :=
  (List.range n.size.toNat).map n.symbol

/-- What follows the scan: the jump to `next_link`, or what is at the label `parse_file`. -/
def after (c : Conf) : Hit → Conf ⊕ Option Word
  | .dir node rest => .inl ⟨c.depth, node, skip c.path rest⟩
  | .file node =>
    if (v.inode node).isSymlink then
      if c.depth - 1 = 0 then .inr none
      else .inl (begin (c.depth - 1) c.cd (string (target (v.inode node)) (behind (c.depth - 1))))
    else if (v.inode node).isDir then .inr none
    else .inr (some node)

/-- From the label `next_link` to the next jump there, or to the end. -/
def turn (scan : Word → (Nat → Byte) → Scan (Option Hit)) (c : Conf) : Scan (Conf ⊕ Option Word) :=
  if (v.inode c.cd).isDir then do
    match ← scan c.cd c.path with
    | some hit => pure (after v behind c hit)
    | none => pure (.inr none)
  else pure (.inr none)

/-- Turn after turn, where `scan` is how a directory is searched. -/
def run (scan : Word → (Nat → Byte) → Scan (Option Hit)) : Nat → Conf → Scan (Option Word)
  | 0, _ => throw .fuel
  | turns + 1, c => do
    match ← turn v behind scan c with
    | .inl c => run scan turns c
    | .inr node => pure node

/-- What `open` begins with. -/
def start (dir : Word) (name : List Byte) : Conf :=
  begin maxDepth dir (string name (behind maxDepth))

/-- `Ext2::open`, for so many turns, with scans of at most `fuel` records. -/
def openPath (dir : Word) (name : List Byte) (fuel turns : Nat) : Scan (Option Word) :=
  if (v.inode dir).isDir then
    run v behind (fun cd path => openScan v (v.inode cd) path fuel) turns (start behind dir name)
  else throw .assertion

/-- The same where directories are lists of records. -/
def openIn (recs : Word → List Record) (dir : Word) (name : List Byte) (turns : Nat) :
    Scan (Option Word) :=
  if (v.inode dir).isDir then
    run v behind (fun cd path => searchList v path (recs cd)) turns (start behind dir name)
  else throw .assertion

end Open

/-! ## The scans of a run -/

section Runs

variable {v : Volume} {behind : Nat → Nat → Byte} {recs : Word → List Record}
variable {scan scan' : Word → (Nat → Byte) → Scan (Option Hit)}
variable {c : Conf} {s s' : State} {turns fuel : Nat}

theorem turn_congr (h : ∀ cd path, (v.inode cd).isDir → scan cd path = scan' cd path) (c : Conf) :
    turn v behind scan c = turn v behind scan' c := by
  unfold turn
  split
  · rename_i hdir
    rw [h c.cd c.path hdir]
  · rfl

theorem run_congr (h : ∀ cd path, (v.inode cd).isDir → scan cd path = scan' cd path) :
    ∀ turns c, run v behind scan turns c = run v behind scan' turns c := by
  intro turns
  induction turns with
  | zero => exact fun _ => rfl
  | succ turns ih =>
    intro c
    unfold run
    rw [turn_congr h]
    congr 1
    funext next
    cases next with
    | inl c => exact ih c
    | inr node => rfl

/-- `open` on directories that are filled by records. -/
theorem openPath_eq (hl : ∀ i, (v.inode i).isDir → Lists v (v.inode i) (recs i))
    (hfuel : v.blockSize.toNat < fuel) (dir : Word) (name : List Byte) (turns : Nat) :
    openPath v behind dir name fuel turns = openIn v behind recs dir name turns := by
  have hscan : ∀ cd path, (v.inode cd).isDir →
      openScan v (v.inode cd) path fuel = searchList v path (recs cd) := fun cd path hdir =>
    openScan_eq (hl cd hdir) hfuel
  unfold openPath openIn
  rw [run_congr hscan]

/-- A turn that goes on. -/
theorem run_inl {c' : Conf} (h : turn v behind scan c s = .ok (.inl c') s') :
    run v behind scan (turns + 1) c s = run v behind scan turns c' s' := by
  simp only [run, bind, EStateM.bind, h]

/-- A turn that is the last one. -/
theorem run_inr {node : Option Word} (h : turn v behind scan c s = .ok (.inr node) s') :
    run v behind scan (turns + 1) c s = .ok node s' := by
  simp only [run, bind, EStateM.bind, h]
  rfl

theorem run_error {l : Stop} (h : turn v behind scan c s = .error l s') :
    run v behind scan (turns + 1) c s = .error l s' := by
  simp only [run, bind, EStateM.bind, h]

end Runs

/-! ## Unused records

A record with inode 0 is no entry of the directory. `live` drops them, and the question is whether
the code's run is the run on what is left. They agree as long as no turn takes an unused record
(`Clear`); and if one does, `getInode` is asked for inode 0, which shows in the state, so the
condition is necessary as well. -/

/-- The record is used. -/
def Record.Live (r : Record) : Prop := r.inode ≠ 0

instance (r : Record) : Decidable r.Live := inferInstanceAs (Decidable (¬_))

/-- The records without the unused ones. -/
def live (rs : List Record) : List Record := rs.filter fun r => decide r.Live

/-- What the scan finds at the record that it takes. -/
def Record.hit (path : Nat → Byte) (r : Record) : Hit :=
  if path r.name.length = 0 then .file r.inode else .dir r.inode (r.name.length + 1)

/-- A turn as it should be in the given directories. -/
def next (v : Volume) (behind : Nat → Nat → Byte) (recs : Word → List Record) (c : Conf) :
    Conf ⊕ Option Word :=
  if (v.inode c.cd).isDir then
    match first c.path (recs c.cd) with
    | some r => after v behind c (r.hit c.path)
    | none => .inr none
  else .inr none

/-- One turn after which there is another one. -/
def Step (v : Volume) (behind : Nat → Nat → Byte) (recs : Word → List Record) (c c' : Conf) : Prop :=
  next v behind recs c = .inl c'

/-- The configurations of the run for `name` in the directories without the unused records. -/
def Reached (v : Volume) (behind : Nat → Nat → Byte) (recs : Word → List Record) (dir : Word)
    (name : List Byte) (c : Conf) : Prop :=
  Relation.ReflTransGen (Step v behind fun i => live (recs i)) (start behind dir name) c

/-- The record that is taken here, if there is one, is used and has an inode. -/
def Clear (v : Volume) (recs : Word → List Record) (c : Conf) : Prop :=
  (v.inode c.cd).isDir → ∀ r, first c.path (recs c.cd) = some r → r.Live ∧ Valid v r.inode

/-- There is a used record for the inode. -/
def Entry (recs : Word → List Record) (inode : Word) : Prop :=
  ∃ dir, ∃ r ∈ recs dir, r.Live ∧ r.inode = inode

/-- However far `open` is let run, it does what it would do without the unused records, has asked
`getInode` for the inodes of used ones only and has not failed there. -/
def SkipsUnused (v : Volume) (behind : Nat → Nat → Byte) (recs : Word → List Record) (dir : Word)
    (name : List Byte) : Prop :=
  ∀ fuel turns s, v.blockSize.toNat < fuel →
    openPath v behind dir name fuel turns s =
      openIn v behind (fun i => live (recs i)) dir name turns s ∧
    wp (openPath v behind dir name fuel turns)
      (fun _ s' => ∀ i ∈ s'.asked, i ∈ s.asked ∨ Entry recs i)
      (fun l s' => l ≠ .assertion ∧ ∀ i ∈ s'.asked, i ∈ s.asked ∨ Entry recs i) s

section Unused

variable {v : Volume} {behind : Nat → Nat → Byte} {recs : Word → List Record}
variable {path : Nat → Byte} {rs : List Record} {r : Record} {c c' : Conf} {s : State} {turns : Nat}

/-- The state after `getInode`. -/
def State.ask (s : State) (inode : Word) : State := { s with asked := inode :: s.asked }

theorem first_mem (h : first path rs = some r) : r ∈ rs := List.mem_of_find?_eq_some h

/-- A search that takes a used record takes the same one without the unused ones. -/
theorem first_live (h : first path rs = some r) (hlive : r.Live) : first path (live rs) = some r := by
  unfold first live at *
  rw [List.find?_filter]
  obtain ⟨hr, as, bs, rfl, has⟩ := List.find?_eq_some_iff_append.mp h
  refine List.find?_eq_some_iff_append.mpr ⟨?_, as, bs, rfl, fun a ha => ?_⟩
  · exact decide_eq_true ⟨decide_eq_true hlive, hr⟩
  · have hno := has a ha
    rw [Bool.not_eq_true'] at hno ⊢
    exact decide_eq_false fun h => Bool.noConfusion (hno.symm.trans h.2)

theorem first_live_none (h : first path rs = none) : first path (live rs) = none := by
  unfold first live at *
  rw [List.find?_filter, List.find?_eq_none]
  intro a ha hboth
  exact List.find?_eq_none.mp h a ha (of_decide_eq_true hboth).2

theorem searchList_none (h : first path rs = none) : searchList v path rs s = .ok none s := by
  unfold searchList
  rw [h]
  rfl

theorem searchList_some (h : first path rs = some r) (hvalid : Valid v r.inode) :
    searchList v path rs s = .ok (some (r.hit path)) (s.ask r.inode) := by
  unfold searchList
  rw [h]
  unfold take getInode Record.hit
  simp only [if_pos (show (r.inode - 1) / v.perGroup < v.groups from hvalid)]
  split <;> rfl

theorem searchList_invalid (h : first path rs = some r) (hno : ¬Valid v r.inode) :
    searchList v path rs s = .error .assertion (s.ask r.inode) := by
  unfold searchList
  rw [h]
  unfold take getInode
  simp only [if_neg (show ¬(r.inode - 1) / v.perGroup < v.groups from hno)]
  rfl

/-- What a turn has asked for. -/
def asks (v : Volume) (recs : Word → List Record) (c : Conf) (s : State) : State :=
  if (v.inode c.cd).isDir then
    match first c.path (recs c.cd) with
    | some r => s.ask r.inode
    | none => s
  else s

/-- A turn where the record that is taken has an inode. -/
theorem turn_ok
    (h : (v.inode c.cd).isDir → ∀ r, first c.path (recs c.cd) = some r → Valid v r.inode) :
    turn v behind (fun cd path => searchList v path (recs cd)) c s =
      .ok (next v behind recs c) (asks v recs c s) := by
  unfold turn next asks
  split
  case isFalse => rfl
  rename_i hdir
  cases hfirst : first c.path (recs c.cd) with
  | none =>
    simp only [bind, EStateM.bind, searchList_none hfirst]
    rfl
  | some r =>
    simp only [bind, EStateM.bind, searchList_some hfirst (h hdir r hfirst)]
    rfl

/-- Where the scan takes a used record, or none, the unused ones make no difference. -/
theorem Clear.first_eq (h : Clear v recs c) (hdir : (v.inode c.cd).isDir) :
    first c.path (live (recs c.cd)) = first c.path (recs c.cd) := by
  cases hfirst : first c.path (recs c.cd) with
  | none => exact first_live_none hfirst
  | some r => exact first_live hfirst (h hdir r hfirst).1

theorem Clear.next_eq (h : Clear v recs c) :
    next v behind (fun i => live (recs i)) c = next v behind recs c := by
  unfold next
  split
  · rename_i hdir
    simp only [h.first_eq hdir]
  · rfl

theorem Clear.asks_eq (h : Clear v recs c) :
    asks v (fun i => live (recs i)) c s = asks v recs c s := by
  unfold asks
  split
  · rename_i hdir
    simp only [h.first_eq hdir]
  · rfl

/-- A turn asks for the inode of a used record. -/
theorem Clear.asked (h : Clear v recs c) :
    ∀ i ∈ (asks v recs c s).asked, i ∈ s.asked ∨ Entry recs i := by
  unfold asks
  split
  case isFalse => exact fun i hi => .inl hi
  rename_i hdir
  cases hfirst : first c.path (recs c.cd) with
  | none => exact fun i hi => .inl hi
  | some r =>
    intro i hi
    rcases List.mem_cons.mp hi with rfl | hi
    · exact .inr ⟨c.cd, r, first_mem hfirst, (h hdir r hfirst).1, rfl⟩
    · exact .inl hi

theorem Clear.turn_eq (h : Clear v recs c) :
    turn v behind (fun cd path => searchList v path (recs cd)) c s =
        .ok (next v behind (fun i => live (recs i)) c) (asks v recs c s) ∧
      turn v behind (fun cd path => searchList v path (live (recs cd))) c s =
        .ok (next v behind (fun i => live (recs i)) c) (asks v recs c s) := by
  constructor
  · rw [h.next_eq]
    exact turn_ok fun hdir r hr => (h hdir r hr).2
  · rw [← h.asks_eq]
    refine turn_ok fun hdir r hr => (h hdir r ?_).2
    rw [← h.first_eq hdir]
    exact hr

/-- The turns are all clear. -/
theorem run_skips (hclear : ∀ c', Relation.ReflTransGen (Step v behind fun i => live (recs i)) c c' →
    Clear v recs c') :
    run v behind (fun cd path => searchList v path (recs cd)) turns c s =
        run v behind (fun cd path => searchList v path (live (recs cd))) turns c s ∧
      wp (run v behind (fun cd path => searchList v path (recs cd)) turns c)
        (fun _ s' => ∀ i ∈ s'.asked, i ∈ s.asked ∨ Entry recs i)
        (fun l s' => l ≠ .assertion ∧ ∀ i ∈ s'.asked, i ∈ s.asked ∨ Entry recs i) s := by
  induction turns generalizing c s with
  | zero => exact ⟨rfl, nofun, fun i hi => .inl hi⟩
  | succ turns ih =>
    have h := hclear c .refl
    obtain ⟨hturn, hturn'⟩ := @Clear.turn_eq v behind recs c s h
    cases hnext : next v behind (fun i => live (recs i)) c with
    | inr node =>
      rw [hnext] at hturn hturn'
      unfold wp
      rw [run_inr hturn, run_inr hturn']
      exact ⟨rfl, h.asked⟩
    | inl c' =>
      rw [hnext] at hturn hturn'
      have hstep : Step v behind (fun i => live (recs i)) c c' := hnext
      obtain ⟨heq, hasked⟩ := @ih c' (asks v recs c s) fun c'' hreach => hclear c'' (.head hstep hreach)
      have hmore : ∀ i, i ∈ (asks v recs c s).asked ∨ Entry recs i → i ∈ s.asked ∨ Entry recs i :=
        fun i hi => hi.elim (h.asked i) .inr
      unfold wp at hasked ⊢
      rw [run_inl hturn, run_inl hturn']
      refine ⟨heq, ?_⟩
      exact wp_mono hasked (fun _ _ h i hi => hmore i (h i hi)) fun _ _ h =>
        ⟨h.1, fun i hi => hmore i (h.2 i hi)⟩

theorem turn_error (hdir : (v.inode c.cd).isDir) (h : first c.path (recs c.cd) = some r)
    (hno : ¬Valid v r.inode) :
    turn v behind (fun cd path => searchList v path (recs cd)) c s =
      .error .assertion (s.ask r.inode) := by
  unfold turn
  rw [if_pos hdir]
  simp only [bind, EStateM.bind, searchList_invalid h hno]

/-- An `open` that asks for the inodes of used records only, and does not fail, is clear here. -/
theorem clear_of_run (h0 : 0 ∉ s.asked)
    (h : wp (run v behind (fun cd path => searchList v path (recs cd)) 1 c)
      (fun _ s' => ∀ i ∈ s'.asked, i ∈ s.asked ∨ Entry recs i)
      (fun l s' => l ≠ .assertion ∧ ∀ i ∈ s'.asked, i ∈ s.asked ∨ Entry recs i) s) :
    Clear v recs c := by
  intro hdir r hr
  unfold wp at h
  by_cases hvalid : Valid v r.inode
  case neg =>
    rw [run_error (turn_error hdir hr hvalid)] at h
    exact absurd rfl h.1
  refine ⟨?_, hvalid⟩
  have hturn := @turn_ok v behind recs c s fun _ r' hr' => by
    rw [hr, Option.some.injEq] at hr'
    exact hr' ▸ hvalid
  have hasks : asks v recs c s = s.ask r.inode := by
    unfold asks
    rw [if_pos hdir, hr]
  rw [hasks] at hturn
  have hall : ∀ i ∈ (s.ask r.inode).asked, i ∈ s.asked ∨ Entry recs i := by
    cases hnext : next v behind recs c with
    | inl c' =>
      rw [hnext] at hturn
      rw [run_inl hturn] at h
      exact h.2
    | inr node =>
      rw [hnext] at hturn
      rwa [run_inr hturn] at h
  intro hunused
  rcases hall r.inode List.mem_cons_self with hin | ⟨_, r', _, hlive, heq⟩
  · exact h0 (hunused ▸ hin)
  · exact hlive (heq.trans hunused)

/-- The same further on. -/
theorem clear_of_reached (hreach : Relation.ReflTransGen (Step v behind fun i => live (recs i)) c c')
    (h0 : 0 ∉ s.asked)
    (h : ∀ turns, wp (run v behind (fun cd path => searchList v path (recs cd)) turns c)
      (fun _ s' => ∀ i ∈ s'.asked, i ∈ s.asked ∨ Entry recs i)
      (fun l s' => l ≠ .assertion ∧ ∀ i ∈ s'.asked, i ∈ s.asked ∨ Entry recs i) s) :
    Clear v recs c' := by
  induction hreach using Relation.ReflTransGen.head_induction_on generalizing s with
  | refl => exact clear_of_run h0 (h 1)
  | @head c c₁ hstep _ ih =>
    have hclear := clear_of_run h0 (h 1)
    have hturn := (@Clear.turn_eq v behind recs c s hclear).1
    rw [show next v behind (fun i => live (recs i)) c = .inl c₁ from hstep] at hturn
    have hzero : 0 ∉ (asks v recs c s).asked := by
      intro hin
      rcases hclear.asked 0 hin with hin | ⟨_, r, _, hlive, heq⟩
      · exact h0 hin
      · exact hlive heq
    have hsub : ∀ i ∈ s.asked, i ∈ (asks v recs c s).asked := by
      intro i hi
      unfold asks
      split
      · split
        · exact List.mem_cons_of_mem _ hi
        · exact hi
      · exact hi
    refine ih hzero fun turns => ?_
    have hrest := h (turns + 1)
    unfold wp at hrest
    rw [run_inl hturn] at hrest
    exact wp_mono hrest (fun _ _ h i hi => (h i hi).imp_left (hsub i)) fun _ _ h =>
      ⟨h.1, fun i hi => (h.2 i hi).imp_left (hsub i)⟩

end Unused

/-- `open` skips the unused records exactly if, as the path is resolved without them, no directory is
searched where one of them comes before the record that the search is for. -/
theorem skips_unused (v : Volume) (behind : Nat → Nat → Byte) (recs : Word → List Record)
    (hl : ∀ i, (v.inode i).isDir → Lists v (v.inode i) (recs i)) (dir : Word)
    (hdir : (v.inode dir).isDir) (name : List Byte) :
    SkipsUnused v behind recs dir name ↔ ∀ c, Reached v behind recs dir name c → Clear v recs c := by
  have hopen : ∀ recs turns, openIn v behind recs dir name turns =
      run v behind (fun cd path => searchList v path (recs cd)) turns (start behind dir name) :=
    fun _ _ => if_pos hdir
  constructor
  · intro h c hreach
    refine clear_of_reached (s := ⟨0, []⟩) hreach List.not_mem_nil fun turns => ?_
    have hrun := (h (v.blockSize.toNat + 1) turns ⟨0, []⟩ (Nat.lt_succ_self _)).2
    rwa [openPath_eq hl (Nat.lt_succ_self _), hopen] at hrun
  · intro h fuel turns s hfuel
    rw [openPath_eq hl hfuel, hopen, hopen]
    exact run_skips h

/-! ## A new file system -/

/-- `/` of a new file system. -/
def rootDir : Inode where
  mode := 0x41ed
  size := 1024
  block _ o := ([2, 0, 0, 0, 12, 0, 1, 0, 46, 0, 0, 0, 2, 0, 0, 0, 12, 0, 2, 0, 46, 46, 0, 0,
    11, 0, 0, 0, 232, 3, 10, 0, 108, 111, 115, 116, 43, 102, 111, 117, 110, 100] : List Byte).getD o 0
  symbol _ := 0

/-- `lost+found` -/
def lostFoundName : List Byte := [108, 111, 115, 116, 43, 102, 111, 117, 110, 100]

/-- Its `/lost+found`, with one block to spare. -/
def lostFound : Inode where
  mode := 0x41c0
  size := 2048
  block b o := if b = 0
    then ([11, 0, 0, 0, 12, 0, 1, 0, 46, 0, 0, 0, 2, 0, 0, 0, 244, 3, 2, 0, 46, 46] : List Byte).getD o 0
    else ([0, 0, 0, 0, 0, 4] : List Byte).getD o 0
  symbol _ := 0

/-- An inode that is not used. -/
def noInode : Inode := ⟨0, 0, fun _ _ => 0, fun _ => 0⟩

/-- The file system. -/
def fresh : Volume where
  blockSize := 1024
  power := power_1024
  perGroup := 128
  groups := 1
  inode i := if i = 2 then rootDir else if i = 11 then lostFound else noInode

/-- What is in these directories. -/
def freshRecs (i : Word) : List Record :=
  if i = 2 then [⟨2, [46]⟩, ⟨2, [46, 46]⟩, ⟨11, lostFoundName⟩]
  else if i = 11 then [⟨11, [46]⟩, ⟨2, [46, 46]⟩, ⟨0, []⟩]
  else []

theorem tiles_next {v : Volume} {buffer : Nat → Byte} {e n : Nat} {es : List Nat}
    (hin : e + 8 + nameLen buffer e ≤ v.blockSize.toNat) (hlen : (le16 buffer (e + 4)).toNat = n)
    (hpos : 0 < n) (h : Records.Tiles (layout v buffer) (e + n) es) :
    Records.Tiles (layout v buffer) e (e :: es) := by
  subst hlen
  exact .next hin hpos h

theorem fresh_lists (i : Word) (h : (fresh.inode i).isDir) :
    Lists fresh (fresh.inode i) (freshRecs i) := by
  by_cases h2 : i = 2
  · subst h2
    refine ⟨fun _ => [0, 12, 24], fun b _ => ?_, by decide⟩
    have hroot : fresh.inode 2 = rootDir := rfl
    rw [hroot]
    exact @tiles_next fresh (rootDir.block 0) 0 12 _ (by decide) (by decide) (by decide)
      (tiles_next (n := 12) (by decide) (by decide) (by decide)
        (tiles_next (n := 1000) (by decide) (by decide) (by decide) .done))
  by_cases h11 : i = 11
  · subst h11
    refine ⟨fun b => if b = 0 then [0, 12] else [0], fun b hb => ?_, by decide⟩
    rcases (show b = 0 ∨ b = 1 by have : b < 2 := hb; omega) with rfl | rfl
    · exact @tiles_next fresh (lostFound.block 0) 0 12 _ (by decide) (by decide) (by decide)
        (tiles_next (n := 1012) (by decide) (by decide) (by decide) .done)
    · exact @tiles_next fresh (lostFound.block 1) 0 1024 _ (by decide) (by decide) (by decide) .done
  · have hno : fresh.inode i = noInode := (if_neg h2).trans (if_neg h11)
    rw [hno] at h
    exact absurd h (by decide)

/-- `lost+found/.` does not meet the unused record. -/
theorem skips_unused_before : SkipsUnused fresh (fun _ _ => 0) freshRecs 2
    (lostFoundName ++ [47, 46]) := by
  refine (skips_unused fresh (fun _ _ => 0) freshRecs fresh_lists 2 (by decide) _).mpr ?_
  have hnext : next fresh (fun _ _ => 0) (fun i => live (freshRecs i))
      (start (fun _ _ => 0) 2 (lostFoundName ++ [47, 46])) =
        .inl ⟨10, 11, skip (string (lostFoundName ++ [47, 46]) fun _ => 0) 11⟩ := rfl
  have hlast : next fresh (fun _ _ => 0) (fun i => live (freshRecs i))
      ⟨10, 11, skip (string (lostFoundName ++ [47, 46]) fun _ => 0) 11⟩ = .inr none := rfl
  intro c hreach
  rcases Relation.ReflTransGen.cases_head hreach with rfl | ⟨c₁, hstep, hreach⟩
  · intro _ r hr
    rw [show r = ⟨11, lostFoundName⟩ from (Option.some.inj hr).symm]
    exact ⟨by decide, by unfold Valid; decide⟩
  obtain rfl := Sum.inl.inj (hnext.symm.trans hstep)
  rcases Relation.ReflTransGen.cases_head hreach with rfl | ⟨c₂, hstep, -⟩
  · intro _ r hr
    rw [show r = ⟨11, [46]⟩ from (Option.some.inj hr).symm]
    exact ⟨by decide, by unfold Valid; decide⟩
  · exact absurd (hlast.symm.trans hstep) nofun

/-- `lost+found/` does: an unused record with an empty name is what the path ends with. -/
theorem unused_followed :
    ¬SkipsUnused fresh (fun _ _ => 0) freshRecs 2 (lostFoundName ++ [47]) := by
  intro h
  have hrun := (h 1025 2 ⟨0, []⟩ (by decide)).2
  have hasserts : openIn fresh (fun _ _ => 0) freshRecs 2 (lostFoundName ++ [47]) 2 ⟨0, []⟩ =
      .error .assertion ⟨0, [0, 11]⟩ := rfl
  rw [openPath_eq fresh_lists (by decide)] at hrun
  unfold wp at hrun
  rw [hasserts] at hrun
  exact hrun.1 rfl

end OsKernel.Ext2.Dir
