import OsKernel.Ext2.Resolve
import OsKernel.Ext2.Scans

/-!
# The two lookups

`Ext2::find` calls itself where `Ext2::open` jumps, counts a directory's bytes down where
`open` counts its blocks up, and asks for the inode of every entry whose name begins the path
before it looks at what comes behind the name. On a tree without unused entries and links the
two agree.

Each is compared with a specification and not with the other: `named` for `find`, `resolve` of
`Ext2/Resolve.lean` for `open`. The specifications agree where there are no links, but for one
thing: `find` returns a directory if the path names one, and `open` does not.

The condition `Plain` is about the tree, `Through` about the path. A path that leads through a
file ends `open` without a result; `find` stops there with a failed assertion.
-/

set_option autoImplicit false

namespace OsKernel.Ext2.Dir

open Lib Prog

/-- `Ext2::find`, for so many calls, with scans of at most `fuel` blocks and records. -/
def findPath (v : Volume) (fuel : Nat) : Nat → Word → (Nat → Byte) → Scan (Option Word)
  | 0, _, _ => throw .fuel
  | calls + 1, dir, name =>
    if (v.inode dir).isDir then do
      match ← findScan v (v.inode dir) name fuel with
      | none => pure none
      | some (.file node) => pure (some node)
      | some (.dir node rest) => findPath v fuel calls node (skip name rest)
    else throw .assertion

/-! ## The specification -/

/-- The entry that the names lead to. -/
def named (v : Volume) (recs : Word → List Record) (dir : Word) (names : List (List Byte)) :
    Option Word :=
  (walk v recs dir names).map Prod.snd

/-- The names but the last one are directories as far as there are entries for them. -/
def Through (v : Volume) (recs : Word → List Record) : Word → List (List Byte) → Prop
  | _, [] => True
  | cd, name :: names => names = [] ∨
    ∀ node, lookup (recs cd) name = some node → (v.inode node).isDir ∧ Through v recs node names

/-- A tree of whole blocks, without links. -/
structure Plain (v : Volume) (recs : Word → List Record) : Prop extends Tree v recs where
  whole : ∀ i, (v.inode i).isDir → v.blockSize.toNat ∣ (v.inode i).size.toNat
  plain : ∀ i, (v.inode i).isDir → ∀ r ∈ recs i, (v.inode r.inode).isSymlink = false

/-! ## A scan of `find`

On directories that are filled by records the code's scan is a search in the list of them. `find`
asks for the inode as soon as a name is what the path goes on with, and `open` only where the path
ends there or goes on with a slash; where all inodes exist, that makes no difference. -/

section Scan

variable {v : Volume} {buffer path : Nat → Byte} {e fuel : Nat} {n : Inode} {s : State}
variable {rs rs' : List Record}

/-- What a scan finds. -/
def hits (path : Nat → Byte) (rs : List Record) : Option Hit :=
  (first path rs).map (Record.hit path)

theorem hits_append : hits path (rs ++ rs') = (hits path rs).or (hits path rs') := by
  unfold hits first
  rw [List.find?_append]
  cases rs.find? fun r => decide (r.Matches path) with
  | none => rfl
  | some r => rfl

/-- A turn: the inode is there, so that it is asked for does not matter. -/
theorem wp_findEntry (h : e + 8 + nameLen buffer e ≤ v.blockSize.toNat)
    (hvalid : Valid v (record buffer e).inode) :
    wp (findEntry v buffer path e) (fun r _ => r = hits path [record buffer e])
      (fun _ _ => False) s := by
  obtain ⟨hlen, hinode, hsame⟩ := entry_reads path h
  have hm : (record buffer e).Matches path ↔ Named buffer path e := matches_record
  have hl : (record buffer e).name.length = nameLen buffer e := length_record
  unfold findEntry hits first
  simp only [hlen, hsame, hinode, pure_bind, decide_eq_true_eq]
  rw [List.find?_singleton]
  by_cases hs : Same buffer path e
  case neg =>
    rw [if_neg hs, decide_eq_false fun h => hs (hm.mp h).1]
    rfl
  rw [if_pos hs, wp_bind]
  refine wp_getInode (fun _ => ?_) fun hno => hno hvalid
  rw [wp_ite]
  by_cases h0 : path (nameLen buffer e) = 0
  · rw [if_pos h0, decide_eq_true (hm.mpr ⟨hs, .inl h0⟩)]
    show _ = some (Record.hit path _)
    unfold Record.hit
    rw [hl, if_pos h0]
  rw [if_neg h0, wp_ite]
  by_cases h47 : path (nameLen buffer e) = 47
  · rw [if_pos h47, decide_eq_true (hm.mpr ⟨hs, .inr h47⟩)]
    show _ = some (Record.hit path _)
    unfold Record.hit
    rw [hl, if_neg h0]
  · rw [if_neg h47, decide_eq_false fun h => (hm.mp h).2.elim h0 h47]
    rfl

/-- The records of one block. -/
theorem wp_findRecords : ∀ {es : List Nat} {s : State},
    (∀ e ∈ es, e + 8 + nameLen buffer e ≤ v.blockSize.toNat) →
    (∀ e ∈ es, Valid v (record buffer e).inode) →
    wp (Records.search (findEntry v buffer path) es)
      (fun r _ => r = hits path (es.map (record buffer))) (fun _ _ => False) s := by
  intro es
  induction es with
  | nil => exact fun _ _ => rfl
  | cons e es ih =>
    intro s hin hvalid
    unfold Records.search
    refine wp_seq (wp_findEntry (hin e List.mem_cons_self) (hvalid e List.mem_cons_self))
      fun r s' hr => ?_
    rw [List.map_cons, ← List.singleton_append, hits_append, ← hr]
    cases r with
    | some a => rfl
    | none =>
      exact ih (fun x hx => hin x (List.mem_cons_of_mem _ hx))
        fun x hx => hvalid x (List.mem_cons_of_mem _ hx)

/-- Block after block, where the bytes that are left to go are those of whole blocks. -/
theorem wp_findBlocks {block : Word → Scan (Option Hit)} {rs : Nat → List Record} :
    ∀ {k i : Nat} {total : Word} {fuel : Nat} {s : State},
    (∀ j < k, ∀ s, wp (block (BitVec.ofNat 32 (i + j)))
      (fun r _ => r = hits path (rs (i + j))) (fun _ _ => False) s) →
    total.toNat = k * v.blockSize.toNat → 0 < v.blockSize.toNat → k < fuel →
    wp (countdownBlocks v block fuel (BitVec.ofNat 32 i) total)
      (fun r _ => r = hits path ((List.range k).flatMap fun j => rs (i + j)))
      (fun _ _ => False) s := by
  intro k
  induction k with
  | zero =>
    intro i total fuel s _ htotal _ hfuel
    obtain ⟨fuel, rfl⟩ : ∃ m, fuel = m + 1 := ⟨fuel - 1, by omega⟩
    have h0 : (0 : Word).toNat = 0 := rfl
    unfold countdownBlocks
    rw [wp_ite, if_neg (by rw [BitVec.lt_def, h0]; omega)]
    rfl
  | succ k ih =>
    intro i total fuel s hblock htotal hbs hfuel
    obtain ⟨fuel, rfl⟩ : ∃ m, fuel = m + 1 := ⟨fuel - 1, by omega⟩
    have h0 : (0 : Word).toNat = 0 := rfl
    have hmul : (k + 1) * v.blockSize.toNat = k * v.blockSize.toNat + v.blockSize.toNat :=
      Nat.succ_mul ..
    have hleft : (total - v.blockSize).toNat = k * v.blockSize.toNat := by
      rw [BitVec.toNat_sub_of_le (by rw [BitVec.le_def]; omega)]
      omega
    have hnext : BitVec.ofNat 32 i + 1 = BitVec.ofNat 32 (i + 1) := (BitVec.ofNat_add i 1).symm
    have hshift : ∀ j, i + 1 + j = i + (j + 1) := fun j => by omega
    unfold countdownBlocks
    rw [wp_ite, if_pos (by rw [BitVec.lt_def, h0]; omega)]
    refine wp_seq (hblock 0 (Nat.succ_pos k) s) fun r s' hr => ?_
    rw [List.range_succ_eq_map, List.flatMap_cons, List.flatMap_map, hits_append, ← hr]
    cases r with
    | some a => rfl
    | none =>
      have hrest := @ih (i + 1) (total - v.blockSize) fuel s' (fun j hj => by
        rw [hshift]
        exact hblock (j + 1) (Nat.succ_lt_succ hj)) hleft hbs (Nat.lt_of_succ_lt_succ hfuel)
      simp only [hshift] at hrest
      rw [hnext]
      exact hrest

/-- The scan of `find` in a directory of whole blocks that are filled by records. -/
theorem wp_findScan (h : Lists v n rs) (hwhole : v.blockSize.toNat ∣ n.size.toNat)
    (hvalid : ∀ r ∈ rs, Valid v r.inode) (hfuel : 2 ^ 32 ≤ fuel) :
    wp (findScan v n path fuel) (fun r _ => r = hits path rs) (fun _ _ => False) s := by
  obtain ⟨es, htiles, rfl⟩ := h
  have hbs : 0 < v.blockSize.toNat := by
    refine Nat.pos_of_ne_zero fun h0 => ?_
    have hpower := v.power
    rw [h0, Nat.zero_dvd] at hpower
    exact absurd hpower (by decide)
  have hlt := v.blockSize.isLt
  have hcount := Nat.div_le_self n.size.toNat v.blockSize.toNat
  have hsize := n.size.isLt
  have hblocks := @wp_findBlocks v path
    (fun b => records v (n.block b) (findEntry v (n.block b) path) fuel)
    (fun b => (es b).map (record (n.block (BitVec.ofNat 32 b))))
    (n.size.toNat / v.blockSize.toNat) 0 n.size fuel s (fun j hj s' => ?_)
    (Nat.div_mul_cancel hwhole).symm hbs (by omega)
  · simp only [Nat.zero_add] at hblocks
    exact hblocks
  · simp only [Nat.zero_add]
    rw [records_eq (htiles j hj) (by omega)]
    refine wp_findRecords (htiles j hj).inside fun e he => hvalid _ ?_
    exact List.mem_flatMap.mpr ⟨j, List.mem_range.mpr hj, List.mem_map_of_mem he⟩

end Scan

/-! ## A path

`find` calls itself for each name of a path and `open` has a loop. Both are compared with the
sequence of names, and so with each other; links are excluded, since `find` does not follow them.
-/

section Paths

variable {v : Volume} {recs : Word → List Record} {heap : Nat → Byte} {p : List Byte}
variable {dir : Word} {name : List Byte} {names : List (List Byte)} {fuel : Nat} {s : State}

/-- One directory: nothing, the entry for the last name, or that for a name with more behind it. -/
theorem Plain.hits_eq (P : Plain v recs) (hp : 0 ∉ p) (hsplit : p.splitOn 47 = name :: names)
    (hdir : (v.inode dir).isDir) :
    hits (string p heap) (recs dir) = (lookup (recs dir) name).map fun node =>
      if names = [] then .file node else .dir node (name.length + 1) := by
  unfold hits lookup
  rw [first_string hp (P.names dir hdir) hsplit, Option.map_map]
  cases hfind : (recs dir).find? fun r => decide (r.name = name) with
  | none => rfl
  | some r =>
    have hname := List.find?_some hfind
    obtain rfl : r.name = name := of_decide_eq_true hname
    simp only [Option.map_some, Function.comp_apply]
    unfold Record.hit
    rcases split_cases hsplit with ⟨rfl, rfl⟩ | ⟨q, rfl, rfl⟩
    · rw [if_pos string_length, if_pos rfl]
    · have hslash : string (r.name ++ 47 :: q) heap r.name.length = 47 := by
        have h := @string_append heap r.name (47 :: q) 0
        rw [Nat.add_zero] at h
        exact h
      rw [hslash, if_neg (by decide), if_neg (List.splitOn_ne_nil 47 q)]

/-- One call, where the calls to come are known to return the right entry. -/
theorem Plain.wp_call (P : Plain v recs) (hfuel : 2 ^ 32 ≤ fuel) {calls : Nat} (hp : 0 ∉ p)
    (hsplit : p.splitOn 47 = name :: names) (hdir : (v.inode dir).isDir)
    (hmore : ∀ node s, names ≠ [] → lookup (recs dir) name = some node →
      wp (findPath v fuel calls node (skip (string p heap) (name.length + 1)))
        (fun r _ => r = named v recs node names) (fun _ _ => False) s) :
    wp (findPath v fuel (calls + 1) dir (string p heap))
      (fun r _ => r = named v recs dir (name :: names)) (fun _ _ => False) s := by
  unfold findPath
  rw [if_pos hdir]
  refine wp_seq (wp_findScan (P.lists dir hdir) (P.whole dir hdir) (P.inodes dir hdir) hfuel)
    fun r s' hr => ?_
  rw [P.hits_eq hp hsplit hdir] at hr
  unfold named walk
  rw [if_pos hdir]
  cases hlook : lookup (recs dir) name with
  | none =>
    rw [hlook] at hr
    subst hr
    rfl
  | some node =>
    rw [hlook] at hr
    subst hr
    by_cases hlast : names = []
    · simp only [Option.map_some, if_pos hlast]
      rfl
    · simp only [Option.map_some, if_neg hlast]
      exact hmore node s' hlast hlook

/-- `find` goes from directory to directory, a call for each name. -/
theorem Plain.wp_findPath (P : Plain v recs) (hfuel : 2 ^ 32 ≤ fuel) {calls : Nat} (hp : 0 ∉ p)
    (hsplit : p.splitOn 47 = name :: names) (hdir : (v.inode dir).isDir)
    (hthrough : Through v recs dir (name :: names)) (hcalls : names.length < calls) :
    wp (findPath v fuel calls dir (string p heap))
      (fun r _ => r = named v recs dir (name :: names)) (fun _ _ => False) s := by
  induction names generalizing p heap dir name calls s with
  | nil =>
    obtain ⟨calls, rfl⟩ := Nat.exists_eq_add_of_le' hcalls
    exact P.wp_call hfuel hp hsplit hdir fun _ _ hno => absurd rfl hno
  | cons name' names ih =>
    obtain ⟨calls, rfl⟩ := Nat.exists_eq_add_of_le' (Nat.le_trans (Nat.le_add_left 1 _) hcalls)
    refine P.wp_call hfuel hp hsplit hdir fun node s' _ hlook => ?_
    obtain ⟨q, rfl, hq⟩ := (split_cases hsplit).resolve_left fun h => nomatch h.1
    obtain ⟨hnode, hrest⟩ := (hthrough.resolve_left fun h => nomatch h) node hlook
    rw [skip_string]
    exact ih (fun h0 => hp (List.mem_append_right _ (List.mem_cons_of_mem _ h0))) hq.symm hnode
      hrest (Nat.lt_of_succ_lt_succ hcalls)

/-- What the names lead to is in a directory, so it is no link. -/
theorem Plain.walk_plain (P : Plain v recs) : ∀ {names : List (List Byte)} {dir cd node : Word},
    walk v recs dir names = some (cd, node) → (v.inode node).isSymlink = false := by
  intro names
  induction names with
  | nil => exact fun h => nomatch h
  | cons name names ih =>
    intro dir cd node h
    unfold walk at h
    by_cases hdir : (v.inode dir).isDir
    case neg =>
      rw [if_neg hdir] at h
      cases h
    rw [if_pos hdir] at h
    cases hlook : lookup (recs dir) name with
    | none =>
      rw [hlook] at h
      cases h
    | some sub =>
      rw [hlook] at h
      simp only at h
      by_cases hlast : names = []
      · rw [if_pos hlast] at h
        obtain ⟨rfl, rfl⟩ := Prod.mk.inj (Option.some.inj h)
        obtain ⟨r, hr, rfl⟩ := Option.map_eq_some_iff.mp hlook
        exact P.plain dir hdir r (List.mem_of_find?_eq_some hr)
      · rw [if_neg hlast] at h
        exact ih h

/-- Without links and without a slash at the beginning, `open` is for the entry that the names lead
to, unless that is a directory. -/
theorem Plain.resolve_eq (P : Plain v recs) (hslash : p.head? ≠ some 47) (links : Nat) :
    resolve v recs links dir p = (named v recs dir (p.splitOn 47)).filter fun node =>
      !(v.inode node).isDir := by
  have hbase : base dir p = (dir, p) := by
    cases p with
    | nil => rfl
    | cons b p => exact if_neg fun h => hslash (congrArg some h)
  unfold resolve named
  rw [hbase]
  cases hwalk : walk v recs dir (p.splitOn 47) with
  | none => rfl
  | some there =>
    obtain ⟨cd, node⟩ := there
    simp only [P.walk_plain hwalk, Bool.false_eq_true, if_false, Option.map_some]
    rw [Option.filter_some]
    cases (v.inode node).isDir with
    | false => rfl
    | true => rfl

end Paths

/-- On a tree without unused entries and links, for a path that goes through directories, `find`
returns the entry that the path names, if there is one, and `open` the same if it is no directory. -/
theorem find_open_agree {v : Volume} {recs : Word → List Record} (P : Plain v recs)
    (behind : Nat → Byte) (behind' : Nat → Nat → Byte) {dir : Word} (hdir : (v.inode dir).isDir)
    {path : List Byte} (hp : 0 ∉ path) (hslash : path.head? ≠ some 47)
    (hthrough : Through v recs dir (path.splitOn 47)) :
    ∃ n, ∀ fuel turns s, n ≤ fuel → n ≤ turns → ∃ s₁ s₂,
      findPath v fuel turns dir (string path behind) s =
        .ok (named v recs dir (path.splitOn 47)) s₁ ∧
      openPath v behind' dir path fuel turns s =
        .ok ((named v recs dir (path.splitOn 47)).filter fun node => !(v.inode node).isDir) s₂ := by
  obtain ⟨n, hopen⟩ := open_resolves v behind' recs P.toTree dir hdir path hp
  obtain ⟨name, names, hsplit⟩ := List.exists_cons_of_ne_nil (List.splitOn_ne_nil 47 path)
  refine ⟨max n (2 ^ 32 + names.length + 1), fun fuel turns s hfuel hturns => ?_⟩
  have hbs := v.blockSize.isLt
  obtain ⟨s₂, hs₂⟩ := hopen fuel turns s (by omega) (by omega)
  rw [P.resolve_eq hslash] at hs₂
  rw [hsplit] at hthrough
  have hfind : wp (findPath v fuel turns dir (string path behind))
      (fun r _ => r = named v recs dir (name :: names)) (fun _ _ => False) s :=
    P.wp_findPath (by omega) hp hsplit hdir hthrough (by omega)
  obtain ⟨r, s₁, hs₁, hr⟩ := wp_returns hfind
  rw [hr, ← hsplit] at hs₁
  exact ⟨s₁, s₂, hs₁, hs₂⟩

/-- `/` with a directory `d`, and that with a file `f`. -/
def nestedDir (self sub name : Byte) : Inode where
  mode := 0x41ed
  size := 1024
  block _ o := ([self, 0, 0, 0, 12, 0, 1, 0, 46, 0, 0, 0, 2, 0, 0, 0, 12, 0, 2, 0, 46, 46, 0, 0,
    sub, 0, 0, 0, 232, 3, 1, 0, name] : List Byte).getD o 0
  symbol _ := 0

/-- The file system. -/
def nested : Volume where
  blockSize := 1024
  power := power_1024
  perGroup := 128
  groups := 1
  inode i := if i = 2 then nestedDir 2 11 100 else if i = 11 then nestedDir 11 12 102
    else ⟨0x81a4, 0, fun _ _ => 0, fun _ => 0⟩

/-- What is in its directories. -/
def nestedRecs (i : Word) : List Record :=
  [⟨i, [46]⟩, ⟨2, [46, 46]⟩, if i = 2 then ⟨11, [100]⟩ else ⟨12, [102]⟩]

theorem nested_dirs {i : Word} (h : (nested.inode i).isDir) : i = 2 ∨ i = 11 := by
  by_cases h2 : i = 2
  · exact .inl h2
  · by_cases h11 : i = 11
    · exact .inr h11
    · have hno : nested.inode i = ⟨0x81a4, 0, fun _ _ => 0, fun _ => 0⟩ :=
        (if_neg h2).trans (if_neg h11)
      rw [hno] at h
      exact absurd h (by decide)

theorem nested_plain : Plain nested nestedRecs where
  lists i h := by
    rcases nested_dirs h with rfl | rfl
    · refine ⟨fun _ => [0, 12, 24], fun b _ => ?_, by decide⟩
      exact @tiles_next nested ((nestedDir 2 11 100).block 0) 0 12 _ (by decide) (by decide)
        (by decide) (tiles_next (n := 12) (by decide) (by decide) (by decide)
          (tiles_next (n := 1000) (by decide) (by decide) (by decide) .done))
    · refine ⟨fun _ => [0, 12, 24], fun b _ => ?_, by decide⟩
      exact @tiles_next nested ((nestedDir 11 12 102).block 0) 0 12 _ (by decide) (by decide)
        (by decide) (tiles_next (n := 12) (by decide) (by decide) (by decide)
          (tiles_next (n := 1000) (by decide) (by decide) (by decide) .done))
  names i h := by
    rcases nested_dirs h with rfl | rfl
    · decide
    · decide
  inodes i h := by
    rcases nested_dirs h with rfl | rfl
    · exact show ∀ r ∈ nestedRecs 2, (r.inode - 1) / nested.perGroup < nested.groups by decide
    · exact show ∀ r ∈ nestedRecs 11, (r.inode - 1) / nested.perGroup < nested.groups by decide
  whole i h := by
    rcases nested_dirs h with rfl | rfl
    · decide
    · decide
  plain i h := by
    rcases nested_dirs h with rfl | rfl
    · decide
    · decide

/-- `d/f` -/
theorem find_open_agree_nested : ∃ n, ∀ fuel turns s, n ≤ fuel → n ≤ turns → ∃ s₁ s₂,
    findPath nested fuel turns 2 (string [100, 47, 102] fun _ => 0) s = .ok (some 12) s₁ ∧
    openPath nested (fun _ _ => 0) 2 [100, 47, 102] fuel turns s = .ok (some 12) s₂ :=
  find_open_agree nested_plain (fun _ => 0) (fun _ _ => 0) (by decide) (by decide) (by decide)
    (.inr fun node hnode => by
      obtain rfl : node = 11 := Option.some.inj (hnode.symm.trans (by decide))
      exact ⟨by decide, .inl rfl⟩)

end OsKernel.Ext2.Dir
