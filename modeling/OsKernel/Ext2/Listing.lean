import OsKernel.Ext2.Directory

/-!
# Directories as lists of records

A directory whose blocks are filled by records is the list of them, and the scan of
`Ext2::open` is a search in that list: it takes the first record whose name is a component of
the path.

This is the step from bytes to names. Below it are blocks, lengths and counts that wrap; above
it (`Ext2/Open.lean`, `Ext2/Resolve.lean`) a directory is a list, and the scan a function on
lists. `Lists` connects a directory with its list, and `openScan_eq` is an equation between
programs: with fuel enough, the two do the same in every state, also where they stop.
-/

set_option autoImplicit false

namespace OsKernel.Ext2.Dir

open Lib Prog

/-- A directory entry. -/
structure Record where
  inode : Word
  name : List Byte
  deriving DecidableEq

/-- The record at `e`. -/
def record (buffer : Nat → Byte) (e : Nat) : Record where
  inode := le32 buffer e
  name := (List.range (nameLen buffer e)).map fun j => buffer (e + 8 + j)

/-- The bytes are what the path goes on with. -/
def Begins (path : Nat → Byte) (name : List Byte) : Prop :=
  ∀ j (h : j < name.length), name[j] = path j

instance (path : Nat → Byte) (name : List Byte) : Decidable (Begins path name) :=
  inferInstanceAs (Decidable (∀ j (_ : j < name.length), _))

/-- The name of the record is a component of the path. -/
def Record.Matches (path : Nat → Byte) (r : Record) : Prop :=
  Begins path r.name ∧ (path r.name.length = 0 ∨ path r.name.length = 47)

instance (path : Nat → Byte) (r : Record) : Decidable (r.Matches path) :=
  inferInstanceAs (Decidable (_ ∧ _))

/-- The record that `open` takes. -/
def first (path : Nat → Byte) (rs : List Record) : Option Record :=
  rs.find? fun r => decide (r.Matches path)

variable (v : Volume)

/-- What `open` does with the record it takes. -/
def take (path : Nat → Byte) (r : Record) : Scan Hit := do
  let node ← getInode v r.inode
  if path r.name.length = 0 then pure (.file node) else pure (.dir node (r.name.length + 1))

/-- The search in a list of records. -/
def searchList (path : Nat → Byte) (rs : List Record) : Scan (Option Hit) :=
  match first path rs with
  | none => pure none
  | some r => some <$> take v path r

variable {v} {buffer path : Nat → Byte} {e : Nat} {n : Inode}

instance : Decidable (Same buffer path e) :=
  inferInstanceAs (Decidable (∀ j < nameLen buffer e, _))

theorem length_record : (record buffer e).name.length = nameLen buffer e := by
  simp [record]

theorem begins_record : Begins path (record buffer e).name ↔ Same buffer path e := by
  constructor
  · intro h j hj
    have hat := h j (by rw [length_record]; exact hj)
    simpa [record] using hat
  · intro h j hj
    have hat := h j (by rw [length_record] at hj; exact hj)
    simpa [record] using hat

theorem matches_record : (record buffer e).Matches path ↔ Named buffer path e := by
  unfold Record.Matches Named
  rw [begins_record, length_record]

/-- The records with their names in the block. -/
def layout (v : Volume) (buffer : Nat → Byte) : Records.Block where
  size := v.blockSize.toNat
  inside e := e + 8 + nameLen buffer e ≤ v.blockSize.toNat
  stops _ := False
  len e := (le16 buffer (e + 4)).toNat
  inside_lt e h := by omega

/-- The blocks of the directory are filled by these records. -/
def Lists (v : Volume) (n : Inode) (rs : List Record) : Prop :=
  ∃ es : Nat → List Nat,
    (∀ b < n.size.toNat / v.blockSize.toNat,
      Records.Tiles (layout v (n.block (BitVec.ofNat 32 b))) 0 (es b)) ∧
    rs = (List.range (n.size.toNat / v.blockSize.toNat)).flatMap fun b =>
      (es b).map (record (n.block (BitVec.ofNat 32 b)))

/-! ## The search of the code is that of the list

From bytes to lists: records, names and blocks as the abstract layer has them. The later modules
are about lists of records and do not look at a buffer again. -/

theorem look_inside {α : Type} {o n : Nat} {x : α} (h : o + n ≤ v.blockSize.toNat) :
    look v o n x = pure x := if_pos h

/-- The comparison stays in the block. -/
theorem sameName_eq : ∀ {n i : Nat}, e + 8 + i + n ≤ v.blockSize.toNat →
    sameName v buffer path e n i =
      pure (decide (∀ j < n, buffer (e + 8 + (i + j)) = path (i + j))) := by
  intro n
  induction n with
  | zero =>
    intro i _
    simp [sameName]
  | succ n ih =>
    intro i h
    unfold sameName
    rw [look_inside (by omega), pure_bind]
    have hshift : ∀ j, i + 1 + j = i + (j + 1) := fun j => by omega
    by_cases hne : buffer (e + 8 + i) = path i
    · rw [if_neg (fun h => h hne), ih (by omega)]
      congr 1
      rw [decide_eq_decide]
      constructor
      · intro hall j hj
        cases j with
        | zero => exact hne
        | succ j =>
          have hat := hall j (Nat.lt_of_succ_lt_succ hj)
          rwa [hshift] at hat
      · intro hall j hj
        rw [hshift]
        exact hall (j + 1) (Nat.succ_lt_succ hj)
    · rw [if_pos hne]
      congr 1
      refine (decide_eq_false fun hall => hne ?_).symm
      exact hall 0 (Nat.succ_pos n)

/-- What a turn reads of an entry that lies in the block. -/
theorem entry_reads (path : Nat → Byte) (h : e + 8 + nameLen buffer e ≤ v.blockSize.toNat) :
    entryNameLen v buffer e = pure (nameLen buffer e) ∧
      entryInode v buffer e = pure (record buffer e).inode ∧
      sameName v buffer path e (nameLen buffer e) 0 = pure (decide (Same buffer path e)) := by
  refine ⟨look_inside (by omega), look_inside (by omega), ?_⟩
  rw [sameName_eq (by omega)]
  congr 2
  simp only [Nat.zero_add]
  rfl

/-- A turn of the code's loop. -/
theorem openEntry_eq (h : e + 8 + nameLen buffer e ≤ v.blockSize.toNat) :
    openEntry v buffer path e = if (record buffer e).Matches path then
      some <$> take v path (record buffer e) else pure none := by
  obtain ⟨hlen, hinode, hsame⟩ := entry_reads path h
  have hm : (record buffer e).Matches path ↔ Named buffer path e := matches_record
  have hl : (record buffer e).name.length = nameLen buffer e := length_record
  unfold openEntry
  simp only [hlen, hsame, hinode, pure_bind, decide_eq_true_eq]
  unfold take
  rw [hl]
  by_cases hs : Same buffer path e
  case neg => rw [if_neg hs, if_neg fun h => hs (hm.mp h).1]
  rw [if_pos hs]
  by_cases h0 : path (nameLen buffer e) = 0
  · rw [if_pos h0, if_pos (hm.mpr ⟨hs, .inl h0⟩)]
    simp only [h0, if_true, map_eq_pure_bind, bind_assoc, pure_bind]
  rw [if_neg h0]
  by_cases h47 : path (nameLen buffer e) = 47
  · rw [if_pos h47, if_pos (hm.mpr ⟨hs, .inr h47⟩)]
    simp only [h0, if_false, map_eq_pure_bind, bind_assoc, pure_bind]
  · rw [if_neg h47, if_neg fun h => (hm.mp h).2.elim h0 h47]

/-- The records of one block. -/
theorem search_eq : ∀ {es : List Nat}, (∀ e ∈ es, e + 8 + nameLen buffer e ≤ v.blockSize.toNat) →
    Records.search (openEntry v buffer path) es = searchList v path (es.map (record buffer)) := by
  intro es
  induction es with
  | nil => exact fun _ => rfl
  | cons e es ih =>
    intro h
    have hrest := ih fun x hx => h x (List.mem_cons_of_mem _ hx)
    unfold Records.search
    rw [openEntry_eq (h e List.mem_cons_self), hrest]
    unfold searchList first
    rw [List.map_cons, List.find?_cons]
    by_cases hm : (record buffer e).Matches path
    · rw [if_pos hm, decide_eq_true hm]
      simp only [map_eq_pure_bind, bind_assoc, pure_bind]
    · rw [if_neg hm, decide_eq_false hm, pure_bind]

theorem searchList_append {rs rs' : List Record} : searchList v path (rs ++ rs') = (do
    match ← searchList v path rs with
    | some a => pure (some a)
    | none => searchList v path rs') := by
  unfold searchList first
  rw [List.find?_append]
  cases rs.find? fun r => decide (r.Matches path) with
  | none => rw [Option.none_or, pure_bind]
  | some r => simp only [Option.some_or, map_eq_pure_bind, bind_assoc, pure_bind]

/-- Block after block. -/
theorem countBlocks_eq {block : Word → Scan (Option Hit)} {rs : Nat → List Record} :
    ∀ {k i : Nat}, (∀ j < k, block (BitVec.ofNat 32 (i + j)) = searchList v path (rs (i + j))) →
      countBlocks block k (BitVec.ofNat 32 i) =
        searchList v path ((List.range k).flatMap fun j => rs (i + j)) := by
  intro k
  induction k with
  | zero => exact fun _ => rfl
  | succ k ih =>
    intro i h
    have hnext : BitVec.ofNat 32 i + 1 = BitVec.ofNat 32 (i + 1) := (BitVec.ofNat_add i 1).symm
    have hshift : ∀ j, i + 1 + j = i + (j + 1) := fun j => by omega
    have hrest := @ih (i + 1) fun j hj => by
      rw [hshift]
      exact h (j + 1) (Nat.succ_lt_succ hj)
    unfold countBlocks
    rw [List.range_succ_eq_map, List.flatMap_cons, List.flatMap_map, searchList_append, hnext, hrest]
    simp only [hshift, Nat.succ_eq_add_one]
    rw [← h 0 (Nat.succ_pos k), Nat.add_zero]
    congr 1
    funext r
    cases r <;> rfl

/-- The loop over a block that is filled by records looks at them in order. -/
theorem records_eq {α : Type} {turn : Nat → Scan (Option α)} {es : List Nat} {fuel : Nat}
    (hT : Records.Tiles (layout v buffer) 0 es) (hfuel : v.blockSize.toNat < fuel) :
    records v buffer turn fuel = Records.search turn es := by
  have hsize : (layout v buffer).size = v.blockSize.toNat := rfl
  have hle := hT.length_le
  have hloop := @Records.loop_eq_search Stop State α _ 0 es .fuel turn (entryRecLen v buffer) fuel hT
    v.blockSize.isLt (by omega) fun x hx => ?_
  · rw [hsize, Nat.sub_zero, BitVec.ofNat_toNat, BitVec.setWidth_eq] at hloop
    exact hloop
  · have hin : x + 8 + nameLen buffer x ≤ v.blockSize.toNat := hT.inside x hx
    unfold entryRecLen
    rw [look_inside (by omega)]
    congr 1
    rw [← BitVec.toNat_inj, BitVec.toNat_setWidth, BitVec.toNat_ofNat]
    rfl

/-- The scan of `open` in a directory that is filled by records. -/
theorem openScan_eq {rs : List Record} (h : Lists v n rs) {fuel : Nat}
    (hfuel : v.blockSize.toNat < fuel) : openScan v n path fuel = searchList v path rs := by
  obtain ⟨es, htiles, rfl⟩ := h
  have hdiv : (n.size / v.blockSize).toNat = n.size.toNat / v.blockSize.toNat :=
    BitVec.toNat_udiv ..
  have hblock : ∀ b < n.size.toNat / v.blockSize.toNat,
      records v (n.block (BitVec.ofNat 32 b)) (openEntry v (n.block (BitVec.ofNat 32 b)) path) fuel =
        searchList v path ((es b).map (record (n.block (BitVec.ofNat 32 b)))) := by
    intro b hb
    have hT := htiles b hb
    rw [← search_eq hT.inside, records_eq hT hfuel]
  have hall := @countBlocks_eq v path
    (fun b => records v (n.block b) (openEntry v (n.block b) path) fuel)
    (fun b => (es b).map (record (n.block (BitVec.ofNat 32 b))))
    (n.size.toNat / v.blockSize.toNat) 0 fun j hj => by
      simp only [Nat.zero_add]
      exact hblock j hj
  simp only [Nat.zero_add] at hall
  unfold openScan
  rw [hdiv]
  exact hall

end OsKernel.Ext2.Dir
