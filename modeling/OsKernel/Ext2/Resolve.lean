import Mathlib.Data.List.Find
import Mathlib.Data.List.TakeWhile
import OsKernel.Ext2.Open

/-!
# What a path names

`resolve` says what `Ext2::open` is for: the path is taken apart at its slashes, the names are
looked up one after the other, and a symbolic link at the end is followed from the directory
it is in, up to nine times. On a tree without unused records the loop of `Ext2::open` comes to
an end and returns exactly that.

`resolve` is a recursion on the path and on the number of links left, and does not know the
loop. Its cases are those of the specification: an absolute path begins at the root, a name
that is not there has no node, a name with more behind it has to be a directory. What is the
code's own choice is kept: a link in the middle of a path is not followed, as it is no
directory, and a path that names a directory opens nothing.

`Yields` is a derivation for the loop, one rule for each turn, and `Tree.resolve_yields`
builds one along the recursion of `resolve`. That it exists is that the loop ends. The number
of turns is not computed; it depends on the lengths of all the links on the way.
-/

set_option autoImplicit false

namespace OsKernel.Ext2.Dir

open Lib Prog

/-! ## The specification -/

/-- The inode of the entry with that name. -/
def lookup (rs : List Record) (name : List Byte) : Option Word :=
  (rs.find? fun r => decide (r.name = name)).map Record.inode

/-- The string in the bytes of a link. -/
def linkName (n : Inode) : List Byte := (target n).takeWhile fun b => decide (b ≠ 0)

section Spec

variable (v : Volume) (recs : Word → List Record)

/-- The names one after the other: the node that the last one is for, and the directory it is in. -/
def walk : Word → List (List Byte) → Option (Word × Word)
  | _, [] => none
  | cd, name :: names =>
    if (v.inode cd).isDir then
      match lookup (recs cd) name with
      | none => none
      | some node => if names = [] then some (cd, node) else walk node names
    else none

/-- Where a path begins, and what is behind that. -/
def base (dir : Word) : List Byte → Word × List Byte
  | [] => (dir, [])
  | b :: path => if b = 47 then (root, path) else (dir, b :: path)

/-- What the path names, if at most so many links are to be followed. -/
def resolve (links : Nat) (dir : Word) (path : List Byte) : Option Word :=
  match walk v recs (base dir path).1 ((base dir path).2.splitOn 47) with
  | none => none
  | some (cd, node) =>
    if (v.inode node).isSymlink then
      match links with
      | 0 => none
      | links + 1 => resolve links cd (linkName (v.inode node))
    else if (v.inode node).isDir then none
    else some node

/-- A tree: every directory is filled by entries, and they all have a name and an inode. -/
structure Tree : Prop where
  lists : ∀ i, (v.inode i).isDir → Lists v (v.inode i) (recs i)
  names : ∀ i, (v.inode i).isDir → ∀ r ∈ recs i, 0 ∉ r.name ∧ 47 ∉ r.name
  inodes : ∀ i, (v.inode i).isDir → ∀ r ∈ recs i, Valid v r.inode

end Spec

section Names

variable {behind : Nat → Byte} {p q : List Byte} {r : Record} {i : Nat}

/-! ## The path as the loop sees it -/

theorem string_of_lt (h : i < p.length) : string p behind i = p[i] := dif_pos h

theorem string_length : string p behind p.length = 0 := by
  unfold string
  rw [dif_neg (Nat.lt_irrefl _), if_pos rfl]

/-- A string goes on with another one. -/
theorem string_append (i : Nat) :
    string (p ++ q) behind (p.length + i) = string q (fun j => behind (p.length + j)) i := by
  have hlen : (p ++ q).length = p.length + q.length := List.length_append
  unfold string
  by_cases h : i < q.length
  · rw [dif_pos (hlen ▸ Nat.add_lt_add_left h p.length), dif_pos h,
      List.getElem_append_right (Nat.le_add_right _ _)]
    simp only [Nat.add_sub_cancel_left]
  · rw [dif_neg (by omega), dif_neg h]
    simp only [hlen, Nat.add_left_cancel_iff]

/-- The name stands in the string. -/
theorem begins_string (h0 : 0 ∉ r.name) : Begins (string p behind) r.name ↔ r.name <+: p := by
  constructor
  · intro h
    have hle : r.name.length ≤ p.length := by
      by_contra hlt
      have hlt : p.length < r.name.length := Nat.not_le.mp hlt
      refine h0 ?_
      rw [← @string_length behind p, ← h p.length hlt]
      exact List.getElem_mem hlt
    rw [List.prefix_iff_eq_take]
    refine List.ext_getElem (by rw [List.length_take, Nat.min_eq_left hle]) fun j hj hj' => ?_
    rw [List.getElem_take, h j hj]
    exact string_of_lt (Nat.lt_of_lt_of_le hj hle)
  · rintro ⟨t, rfl⟩ j hj
    rw [string_of_lt (by rw [List.length_append]; omega), List.getElem_append_left hj]

/-- A name is a component of the string exactly if it is the first one. -/
theorem matches_string (hp : 0 ∉ p) (h0 : 0 ∉ r.name) (h47 : 47 ∉ r.name) :
    r.Matches (string p behind) ↔ (p.splitOn 47).head? = some r.name := by
  unfold Record.Matches
  rw [begins_string h0]
  constructor
  · rintro ⟨⟨t, rfl⟩, hend⟩
    cases t with
    | nil =>
      rw [List.append_nil, List.splitOn_eq_singleton h47]
      rfl
    | cons b t =>
      have hat : string (r.name ++ b :: t) behind r.name.length = b := by
        have h := @string_append behind r.name (b :: t) 0
        rw [Nat.add_zero] at h
        exact h
      rw [hat] at hend
      rcases hend with rfl | rfl
      · exact absurd (List.mem_append_right _ List.mem_cons_self) hp
      · rw [List.splitOn_append_cons_self_of_not_mem h47]
        rfl
  · intro h
    by_cases hmem : 47 ∈ p
    · obtain ⟨a, q, rfl, ha⟩ := List.eq_append_cons_of_mem hmem
      rw [List.splitOn_append_cons_self_of_not_mem ha] at h
      obtain rfl : a = r.name := Option.some.inj h
      refine ⟨List.prefix_append _ _, .inr ?_⟩
      have h := @string_append behind r.name (47 :: q) 0
      rw [Nat.add_zero] at h
      exact h
    · rw [List.splitOn_eq_singleton hmem] at h
      obtain rfl : p = r.name := Option.some.inj h
      exact ⟨List.prefix_refl _, .inl string_length⟩

/-- The scan takes the entry for the first component. -/
theorem first_string {rs : List Record} {name : List Byte} {names : List (List Byte)} (hp : 0 ∉ p)
    (hrs : ∀ r ∈ rs, 0 ∉ r.name ∧ 47 ∉ r.name) (hsplit : p.splitOn 47 = name :: names) :
    first (string p behind) rs = rs.find? fun r => decide (r.name = name) := by
  refine List.find?_congr fun r hr => decide_eq_decide.mpr ?_
  obtain ⟨h0, h47⟩ := hrs r hr
  rw [matches_string hp h0 h47, hsplit, List.head?_cons, Option.some.injEq]
  exact eq_comm

/-- A path is one name, or a name and another path behind a slash. -/
theorem split_cases {name : List Byte} {names : List (List Byte)} (h : p.splitOn 47 = name :: names) :
    (names = [] ∧ p = name) ∨ ∃ q, p = name ++ 47 :: q ∧ names = q.splitOn 47 := by
  by_cases hmem : 47 ∈ p
  · obtain ⟨a, q, rfl, ha⟩ := List.eq_append_cons_of_mem hmem
    rw [List.splitOn_append_cons_self_of_not_mem ha] at h
    obtain ⟨rfl, rfl⟩ := List.cons.inj h
    exact .inr ⟨q, rfl, rfl⟩
  · rw [List.splitOn_eq_singleton hmem] at h
    obtain ⟨rfl, rfl⟩ := List.cons.inj h
    exact .inl ⟨rfl, rfl⟩

/-- Behind a slash. -/
theorem skip_string {name : List Byte} : skip (string (name ++ 47 :: q) behind) (name.length + 1) =
    string q (fun j => behind (name.length + 1 + j)) := by
  funext i
  have h := @string_append behind (name ++ [47]) q i
  rw [List.append_assoc, List.length_append] at h
  exact h

/-- The string in some bytes is what the loop sees of them. -/
theorem string_takeWhile :
    string p behind = string (p.takeWhile fun b => decide (b ≠ 0)) (string p behind) := by
  funext i
  have hprefix : (p.takeWhile fun b => decide (b ≠ 0)) <+: p := List.takeWhile_prefix _
  rcases Nat.lt_trichotomy i (p.takeWhile fun b => decide (b ≠ 0)).length with h | rfl | h
  · rw [string_of_lt h, hprefix.getElem h]
    exact string_of_lt (Nat.lt_of_lt_of_le h hprefix.length_le)
  · rw [string_length]
    have hat := @string_append behind (p.takeWhile fun b => decide (b ≠ 0))
      (p.dropWhile fun b => decide (b ≠ 0)) 0
    rw [List.takeWhile_append_dropWhile, Nat.add_zero] at hat
    rw [hat]
    have hnot := List.head?_dropWhile_not (fun b : Byte => decide (b ≠ 0)) p
    cases hrest : p.dropWhile fun b => decide (b ≠ 0) with
    | nil => rfl
    | cons b t =>
      rw [hrest] at hnot
      exact not_not.mp (of_decide_eq_false hnot)
  · unfold string
    rw [dif_neg (Nat.not_lt.mpr (Nat.le_of_lt h)), if_neg (Nat.ne_of_gt h)]

end Names

/-! ## The loop comes to an end

`open` has one loop for everything, with a counter that goes down at links only. `Yields` says
that the turns from here end, and with which result; a path is a list of names, and a link begins
a new one with one link less. So the proof is an induction on links with one on names inside. -/

section Yields

/-- The turns from here on end with this result. -/
inductive Yields (v : Volume) (behind : Nat → Nat → Byte) (recs : Word → List Record) :
    Conf → Option Word → Prop
  | last {c : Conf} {node : Option Word} : next v behind recs c = .inr node → Yields v behind recs c node
  | step {c c' : Conf} {node : Option Word} :
    next v behind recs c = .inl c' → Yields v behind recs c' node → Yields v behind recs c node

variable {v : Volume} {behind : Nat → Nat → Byte} {recs : Word → List Record}
variable {c : Conf} {result : Option Word} {depth : Nat} {cd dir : Word} {p : List Byte}
variable {heap : Nat → Byte} {name : List Byte} {names : List (List Byte)}

/-- The result is there, or the turns to come end with it. -/
def Leads (v : Volume) (behind : Nat → Nat → Byte) (recs : Word → List Record) (result : Option Word) :
    Conf ⊕ Option Word → Prop
  | .inl c => Yields v behind recs c result
  | .inr node => node = result

theorem Leads.yields (h : Leads v behind recs result (next v behind recs c)) :
    Yields v behind recs c result := by
  cases hnext : next v behind recs c with
  | inl c' =>
    rw [hnext] at h
    exact .step hnext h
  | inr node =>
    rw [hnext] at h
    exact .last (hnext.trans (congrArg Sum.inr h))

/-- What the loop does where the names lead. -/
def arrive (v : Volume) (behind : Nat → Nat → Byte) (depth : Nat) :
    Option (Word × Word) → Conf ⊕ Option Word
  | none => .inr none
  | some (cd, node) => after v behind ⟨depth, cd, fun _ => 0⟩ (.file node)

/-- A turn looks one name up. -/
theorem Tree.next_eq (T : Tree v recs) (hp : 0 ∉ p) (hsplit : p.splitOn 47 = name :: names) :
    next v behind recs ⟨depth, cd, string p heap⟩ =
      if (v.inode cd).isDir then
        match lookup (recs cd) name with
        | none => .inr none
        | some node =>
          if names = [] then arrive v behind depth (some (cd, node))
          else .inl ⟨depth, node, skip (string p heap) (name.length + 1)⟩
      else .inr none := by
  unfold next
  by_cases hdir : (v.inode cd).isDir
  case neg => rw [if_neg hdir, if_neg hdir]
  rw [if_pos hdir, if_pos hdir, first_string hp (T.names cd hdir) hsplit]
  unfold lookup
  cases hfind : (recs cd).find? fun r => decide (r.name = name) with
  | none => rfl
  | some r =>
    have hname := List.find?_some hfind
    obtain rfl : r.name = name := of_decide_eq_true hname
    simp only [Option.map_some]
    unfold Record.hit
    rcases split_cases hsplit with ⟨rfl, rfl⟩ | ⟨q, rfl, rfl⟩
    · rw [if_pos string_length, if_pos rfl]
      rfl
    · have hslash : string (r.name ++ 47 :: q) heap r.name.length = 47 := by
        have h := @string_append heap r.name (47 :: q) 0
        rw [Nat.add_zero] at h
        exact h
      rw [hslash, if_neg (by decide), if_neg (List.splitOn_ne_nil 47 q)]
      rfl

/-- One name, where the rest of them is known to lead on. -/
theorem Tree.name_yields (T : Tree v recs) (hp : 0 ∉ p) (hsplit : p.splitOn 47 = name :: names)
    (hmore : ∀ node, names ≠ [] → Leads v behind recs result (arrive v behind depth
      (walk v recs node names)) →
      Yields v behind recs ⟨depth, node, skip (string p heap) (name.length + 1)⟩ result)
    (h : Leads v behind recs result (arrive v behind depth (walk v recs cd (name :: names)))) :
    Yields v behind recs ⟨depth, cd, string p heap⟩ result := by
  refine Leads.yields ?_
  rw [T.next_eq hp hsplit]
  unfold walk at h
  by_cases hdir : (v.inode cd).isDir
  case neg => rwa [if_neg hdir] at h ⊢
  rw [if_pos hdir] at h ⊢
  cases hlook : lookup (recs cd) name with
  | none =>
    rw [hlook] at h
    exact h
  | some node =>
    rw [hlook] at h
    simp only at h ⊢
    by_cases hlast : names = []
    · rwa [if_pos hlast] at h ⊢
    · rw [if_neg hlast] at h ⊢
      exact hmore node hlast h

/-- The names one after the other, a turn for each. -/
theorem Tree.walk_yields (T : Tree v recs) (hp : 0 ∉ p) (hsplit : p.splitOn 47 = name :: names)
    (h : Leads v behind recs result (arrive v behind depth (walk v recs cd (name :: names)))) :
    Yields v behind recs ⟨depth, cd, string p heap⟩ result := by
  induction names generalizing cd p heap name with
  | nil => exact T.name_yields hp hsplit (fun _ hno => absurd rfl hno) h
  | cons name' names ih =>
    refine T.name_yields hp hsplit (fun node _ hrest => ?_) h
    obtain ⟨q, rfl, hq⟩ := (split_cases hsplit).resolve_left fun h => nomatch h.1
    rw [skip_string]
    exact ih (fun h0 => hp (List.mem_append_right _ (List.mem_cons_of_mem _ h0))) hq.symm hrest

/-- The beginning of a path. -/
theorem begin_string (hp : 0 ∉ p) : 0 ∉ (base dir p).2 ∧ ∃ heap',
    begin depth dir (string p heap) = ⟨depth, (base dir p).1, string (base dir p).2 heap'⟩ := by
  cases p with
  | nil =>
    have h0 : string [] heap 0 = 0 := @string_length heap []
    refine ⟨hp, heap, ?_⟩
    unfold begin
    rw [h0]
    rfl
  | cons b p =>
    have h0 : string (b :: p) heap 0 = b := rfl
    have hbase : base dir (b :: p) = if b = 47 then (root, p) else (dir, b :: p) := rfl
    unfold begin
    rw [h0, hbase]
    by_cases h47 : b = 47
    · subst h47
      exact ⟨fun h => hp (List.mem_cons_of_mem _ h), _, congrArg (Conf.mk depth root)
        (@skip_string heap p [])⟩
    · rw [if_neg h47, if_neg h47]
      exact ⟨hp, heap, rfl⟩

/-- A path from its beginning on. -/
theorem Tree.base_yields (T : Tree v recs) (hp : 0 ∉ p)
    (h : Leads v behind recs result (arrive v behind depth
      (walk v recs (base dir p).1 ((base dir p).2.splitOn 47)))) :
    Yields v behind recs (begin depth dir (string p heap)) result := by
  obtain ⟨h0, heap', hbegin⟩ := @begin_string depth dir p heap hp
  rw [hbegin]
  obtain ⟨name, names, hsplit⟩ := List.exists_cons_of_ne_nil (List.splitOn_ne_nil 47 (base dir p).2)
  rw [hsplit] at h
  exact T.walk_yields h0 hsplit h

/-- The loop ends with what the path names. -/
theorem Tree.resolve_yields (T : Tree v recs) {links : Nat} (hp : 0 ∉ p) :
    Yields v behind recs (begin (links + 1) dir (string p heap)) (resolve v recs links dir p) := by
  induction links generalizing dir p heap with
  | zero =>
    refine T.base_yields hp ?_
    unfold resolve
    cases walk v recs (base dir p).1 ((base dir p).2.splitOn 47) with
    | none => rfl
    | some there =>
      obtain ⟨cd, node⟩ := there
      unfold arrive after
      simp only
      split <;> [rfl; split <;> rfl]
  | succ links ih =>
    refine T.base_yields hp ?_
    unfold resolve
    cases walk v recs (base dir p).1 ((base dir p).2.splitOn 47) with
    | none => rfl
    | some there =>
      obtain ⟨cd, node⟩ := there
      unfold arrive after
      simp only
      split <;> [skip; split <;> rfl]
      -- the link's target, from the directory that the link is in
      rw [if_neg (by omega), string_takeWhile]
      refine ih fun h0 => ?_
      have hne := List.mem_takeWhile_imp h0
      exact absurd rfl (of_decide_eq_true hne)

/-- A result that the turns end with is what the loop returns. -/
theorem Tree.run_ends (T : Tree v recs) (h : Yields v behind recs c result) :
    ∃ n, ∀ turns s, n ≤ turns → ∃ s',
      run v behind (fun cd path => searchList v path (recs cd)) turns c s = .ok result s' := by
  have hturn : ∀ c s, turn v behind (fun cd path => searchList v path (recs cd)) c s =
      .ok (next v behind recs c) (asks v recs c s) := fun c s =>
    turn_ok fun hdir r hr => T.inodes c.cd hdir r (first_mem hr)
  induction h with
  | @last c node hnext =>
    refine ⟨1, fun turns s hle => ?_⟩
    obtain ⟨turns, rfl⟩ := Nat.exists_eq_add_of_le' hle
    exact ⟨_, run_inr (hnext ▸ hturn c s)⟩
  | @step c c' node hnext _ ih =>
    obtain ⟨n, hn⟩ := ih
    refine ⟨n + 1, fun turns s hle => ?_⟩
    obtain ⟨turns, rfl⟩ := Nat.exists_eq_add_of_le' (Nat.le_trans (Nat.le_add_left 1 n) hle)
    rw [run_inl (hnext ▸ hturn c s)]
    exact hn turns _ (Nat.le_of_succ_le_succ hle)

end Yields

/-- On a tree, `Ext2::open` returns what the path names, with at most nine links on the way. -/
theorem open_resolves (v : Volume) (behind : Nat → Nat → Byte) (recs : Word → List Record)
    (T : Tree v recs) (dir : Word) (hdir : (v.inode dir).isDir) (path : List Byte) (hp : 0 ∉ path) :
    ∃ n, ∀ fuel turns s, v.blockSize.toNat < fuel → n ≤ turns → ∃ s',
      openPath v behind dir path fuel turns s = .ok (resolve v recs 9 dir path) s' := by
  obtain ⟨n, hn⟩ := T.run_ends (@Tree.resolve_yields v behind recs dir path (behind maxDepth) T 9 hp)
  refine ⟨n, fun fuel turns s hfuel hle => ?_⟩
  obtain ⟨s', hs'⟩ := hn turns s hle
  refine ⟨s', ?_⟩
  rw [openPath_eq T.lists hfuel]
  unfold openIn
  rw [if_pos hdir]
  exact hs'

/-- `/` with a link `a`, to `b`, and a file `b`. -/
def linkedDir : Inode where
  mode := 0x41ed
  size := 1024
  block _ o := ([2, 0, 0, 0, 12, 0, 1, 0, 46, 0, 0, 0, 2, 0, 0, 0, 12, 0, 2, 0, 46, 46, 0, 0,
    12, 0, 0, 0, 12, 0, 1, 0, 97, 0, 0, 0, 13, 0, 0, 0, 220, 3, 1, 0, 98] : List Byte).getD o 0
  symbol _ := 0

/-- The file system. -/
def linked : Volume where
  blockSize := 1024
  power := power_1024
  perGroup := 128
  groups := 1
  inode i := if i = 2 then linkedDir
    else if i = 12 then ⟨0xa1ff, 1, fun _ _ => 0, fun _ => 98⟩
    else ⟨0x81a4, 0, fun _ _ => 0, fun _ => 0⟩

/-- What is in its directory. -/
def linkedRecs (_ : Word) : List Record := [⟨2, [46]⟩, ⟨2, [46, 46]⟩, ⟨12, [97]⟩, ⟨13, [98]⟩]

theorem linked_root {i : Word} (h : (linked.inode i).isDir) : i = 2 := by
  by_contra h2
  by_cases h12 : i = 12
  · subst h12
    exact absurd h (by decide)
  · have hno : linked.inode i = ⟨0x81a4, 0, fun _ _ => 0, fun _ => 0⟩ :=
      (if_neg h2).trans (if_neg h12)
    rw [hno] at h
    exact absurd h (by decide)

theorem linked_tree : Tree linked linkedRecs where
  lists i h := by
    obtain rfl := linked_root h
    refine ⟨fun _ => [0, 12, 24, 36], fun b _ => ?_, by decide⟩
    have hroot : linked.inode 2 = linkedDir := rfl
    rw [hroot]
    exact @tiles_next linked (linkedDir.block 0) 0 12 _ (by decide) (by decide) (by decide)
      (tiles_next (n := 12) (by decide) (by decide) (by decide)
        (tiles_next (n := 12) (by decide) (by decide) (by decide)
          (tiles_next (n := 988) (by decide) (by decide) (by decide) .done)))
  names _ _ := show ∀ r ∈ linkedRecs 2, 0 ∉ r.name ∧ 47 ∉ r.name by decide
  inodes _ _ := show ∀ r ∈ linkedRecs 2, (r.inode - 1) / linked.perGroup < linked.groups by decide

/-- `a` names the file `b`. -/
theorem open_resolves_link : ∃ n, ∀ fuel turns s, linked.blockSize.toNat < fuel → n ≤ turns → ∃ s',
    openPath linked (fun _ _ => 0) 2 [97] fuel turns s = .ok (some 13) s' := by
  have hresolve : resolve linked linkedRecs 9 2 [97] = some 13 := by decide
  rw [← hresolve]
  exact open_resolves linked (fun _ _ => 0) linkedRecs linked_tree 2 (by decide) [97] (by decide)

end OsKernel.Ext2.Dir
