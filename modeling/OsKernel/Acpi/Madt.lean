import OsKernel.Acpi.Config
import OsKernel.Lib.Records

/-!
# What the loop over the processor table looks at

The loop steps to the next entry before it looks at one. So `Walk` is the list of what it
looks at: not the first entry, and at last whatever is behind the table. The loop ends where
the walk does, and what it records is what a fold over the walk notes.

`Walk` is a derivation, finite if there is one. A length of 0 has none, and neither has a
table of 2 GB in which the count never gets to 0; so that the loop ends, and that there is a
walk, are the same, and the first theorem says when that is, for every contents of memory.

What the loop is for is a second matter. `Filled` says that the entries fill the table and
where they are; `lookedAt` shifts them by one. Comparing what was recorded with what the
entries say (`Parsed`) comes to whether the first entry, which is missed, and what is behind
the table, which is not, make a difference. On a machine where the first entry is the boot
processor and the bytes behind the table are of no known type, the result may still be the
right one by luck: but a byte behind the table has been read.
-/

set_option autoImplicit false

namespace OsKernel.Acpi

open Lib Prog

variable (mem : Bytes)

/-- An entry that `examine` records. -/
def IsProcessor (a : Word) : Prop := mem a = 0 ∧ mem (a + 2) ≠ 0

instance (a : Word) : Decidable (IsProcessor mem a) := inferInstanceAs (Decidable (_ ∧ _))

/-- An entry whose address `examine` takes. -/
def IsIOAPIC (a : Word) : Prop := mem a = 1

instance (a : Word) : Decidable (IsIOAPIC mem a) := inferInstanceAs (Decidable (_ = _))

def apicInfoAt (a : Word) : ApicInfo := ⟨mem (a + 2), mem (a + 3), wordAt mem (a + 4)⟩

/-- The processors among the entries at the given places. -/
def processors (es : List Word) : List ApicInfo :=
  (es.filter (IsProcessor mem ·)).map (apicInfoAt mem)

/-- The address in the last I/O APIC entry among the given places. -/
def lastIOAPIC (before : Word) (es : List Word) : Word :=
  ((es.filter (IsIOAPIC mem ·)).getLast?.map fun a => wordAt mem (a + 4)).getD before

/-- What looking at an entry changes. -/
def noted (c : Config) (a : Word) : Config :=
  if IsProcessor mem a then
    { c with nOtherProcs := c.nOtherProcs + 1,
             apicInfo := c.apicInfo.setIfInBounds c.nOtherProcs.toNat (apicInfoAt mem a) }
  else if IsIOAPIC mem a then { c with ioAPIC := wordAt mem (a + 4) }
  else c

/-- From `entryPtr` on, with that many bytes to go, the loop looks at the given places and ends. -/
inductive Walk : Word → Word → List Word → Prop
  | done {entryPtr bytes : Word} : ¬0 < bytes.toInt → Walk entryPtr bytes []
  | next {entryPtr bytes : Word} {es : List Word} :
    0 < bytes.toInt → mem (entryPtr + 1) ≠ 0 →
    Walk (entryPtr + (mem (entryPtr + 1)).setWidth 32) (bytes - (mem (entryPtr + 1)).setWidth 32) es →
    Walk entryPtr bytes ((entryPtr + (mem (entryPtr + 1)).setWidth 32) :: es)

variable {mem} {s s' : Probe} {a p bytes : Word} {es es' : List Word} {fuel : Nat} {c : Config}

/-! ## One entry -/

theorem noted_processor (h : IsProcessor mem a) : noted mem c a =
    { c with nOtherProcs := c.nOtherProcs + 1,
             apicInfo := c.apicInfo.setIfInBounds c.nOtherProcs.toNat (apicInfoAt mem a) } :=
  if_pos h

theorem IsIOAPIC.not_processor (h : IsIOAPIC mem a) : ¬IsProcessor mem a := by
  intro hp
  rw [IsIOAPIC, hp.1] at h
  exact absurd h (by decide)

theorem noted_ioapic (h : IsIOAPIC mem a) :
    noted mem c a = { c with ioAPIC := wordAt mem (a + 4) } := by
  unfold noted
  rw [if_neg h.not_processor, if_pos h]

theorem noted_other (hp : ¬IsProcessor mem a) (hio : ¬IsIOAPIC mem a) : noted mem c a = c := by
  unfold noted
  rw [if_neg hp, if_neg hio]

@[simp] theorem wp_read8 {Q : Byte → Probe → Prop} {E : Stop → Probe → Prop} :
    wp (read8 mem a) Q E s ↔ Q (mem a) { s with reads := (a, 1) :: s.reads } := Iff.rfl

@[simp] theorem wp_read32 {Q : Word → Probe → Prop} {E : Stop → Probe → Prop} :
    wp (read32 mem a) Q E s ↔ Q (wordAt mem a) { s with reads := (a, 4) :: s.reads } := Iff.rfl

/-- `s'` comes after `s`, and between them at least the byte at `a` was read. -/
def ReadBetween (s s' : Probe) (a : Word) : Prop :=
  ∃ new, s'.reads = new ++ s.reads ∧ Touches new a

theorem wp_examine : wp (examine mem a)
    (fun _ s' => (IsProcessor mem a → s.config.nOtherProcs.toNat < MAX_PROCS) ∧
      s'.config = noted mem s.config a ∧ ReadBetween s s' a)
    (fun _ _ => IsProcessor mem a ∧ MAX_PROCS ≤ s.config.nOtherProcs.toNat) s := by
  have hread : ∀ l, Touches (l ++ [(a, 1)]) a := fun l =>
    touches_append.mpr (.inr ⟨_, List.mem_singleton.mpr rfl, 0, Nat.one_pos, by simp⟩)
  unfold examine
  rw [wp_bind, wp_read8]
  by_cases h0 : mem a = 0
  · rw [if_pos h0, wp_bind, wp_read8]
    by_cases hid : mem (a + 2) = 0
    · have hno : ¬IsProcessor mem a := fun h => h.2 hid
      have hio : ¬IsIOAPIC mem a := by
        unfold IsIOAPIC
        rw [h0]
        decide
      rw [if_pos hid]
      exact ⟨fun h => absurd h hno, (noted_other hno hio).symm, _, rfl, hread [(a + 2, 1)]⟩
    · have hyes : IsProcessor mem a := ⟨h0, hid⟩
      rw [if_neg hid]
      unfold record
      simp only [wp_bind, wp_get, wp_modify, wp_read8, wp_ite]
      by_cases hroom : s.config.nOtherProcs.toNat < MAX_PROCS
      · rw [if_pos hroom]
        exact ⟨fun _ => hroom, (noted_processor (c := s.config) hyes).symm, _, rfl,
          hread [(a + 4, 4), (a + 3, 1), (a + 2, 1), (a + 2, 1)]⟩
      · rw [if_neg hroom]
        exact ⟨hyes, Nat.le_of_not_lt hroom⟩
  · have hno : ¬IsProcessor mem a := fun h => h0 h.1
    rw [if_neg h0]
    by_cases h1 : mem a = 1
    · rw [if_pos h1]
      exact ⟨fun h => absurd h hno, (noted_ioapic (c := s.config) h1).symm, _, rfl, hread [(a + 4, 4)]⟩
    · rw [if_neg h1]
      exact ⟨fun h => absurd h hno, (noted_other hno h1).symm, _, rfl, hread []⟩

theorem ReadBetween.suffix (h : ReadBetween s s' a) : s.reads <:+ s'.reads := by
  obtain ⟨new, hnew, -⟩ := h
  exact ⟨new, hnew.symm⟩

theorem ReadBetween.later {s'' : Probe} (h : ReadBetween s s' a) (hs : s'.reads <:+ s''.reads) :
    ReadBetween s s'' a := by
  obtain ⟨l, hl, ht⟩ := h
  obtain ⟨new, hnew⟩ := hs
  exact ⟨new ++ l, by rw [← hnew, hl, List.append_assoc], touches_append.mpr (.inr ht)⟩

theorem ReadBetween.earlier {s'' : Probe} (h : ReadBetween s' s'' a) (hs : s.reads <:+ s'.reads) :
    ReadBetween s s'' a := by
  obtain ⟨l, hl, ht⟩ := h
  obtain ⟨new, hnew⟩ := hs
  exact ⟨l ++ new, by rw [hl, ← hnew, List.append_assoc], touches_append.mpr (.inl ht)⟩

/-! ## What is recorded -/

variable (mem) in
/-- There is room in `apicInfo` for the processors at the given places. -/
def Room (c : Config) (es : List Word) : Prop :=
  c.nOtherProcs.toNat + (processors mem es).length ≤ MAX_PROCS

theorem processors_cons_of (h : IsProcessor mem a) :
    processors mem (a :: es) = apicInfoAt mem a :: processors mem es := by
  unfold processors
  rw [List.filter_cons_of_pos (by simpa using h), List.map_cons]

theorem processors_cons_not (h : ¬IsProcessor mem a) :
    processors mem (a :: es) = processors mem es := by
  unfold processors
  rw [List.filter_cons_of_neg (by simpa using h)]

theorem noted_nOtherProcs_not (h : ¬IsProcessor mem a) :
    (noted mem c a).nOtherProcs = c.nOtherProcs ∧ (noted mem c a).apicInfo = c.apicInfo := by
  by_cases hio : IsIOAPIC mem a
  · rw [noted_ioapic hio]
    exact ⟨rfl, rfl⟩
  · rw [noted_other h hio]
    exact ⟨rfl, rfl⟩

theorem noted_nOtherProcs (h : IsProcessor mem a) (hroom : c.nOtherProcs.toNat < MAX_PROCS) :
    (noted mem c a).nOtherProcs.toNat = c.nOtherProcs.toNat + 1 := by
  rw [noted_processor h]
  have h1 : (1 : Word).toNat = 1 := rfl
  have h16 : c.nOtherProcs.toNat < 16 := hroom
  simp only [BitVec.toNat_add, h1]
  omega

theorem noted_le (hle : c.nOtherProcs.toNat ≤ MAX_PROCS)
    (h : IsProcessor mem a → c.nOtherProcs.toNat < MAX_PROCS) :
    (noted mem c a).nOtherProcs.toNat ≤ MAX_PROCS := by
  by_cases hp : IsProcessor mem a
  · rw [noted_nOtherProcs hp (h hp)]
    exact h hp
  · rw [(noted_nOtherProcs_not hp).1]
    exact hle

/-- Room for one place after the other. -/
theorem room_cons : Room mem c (a :: es) ↔
    (IsProcessor mem a → c.nOtherProcs.toNat < MAX_PROCS) ∧ Room mem (noted mem c a) es := by
  unfold Room
  by_cases h : IsProcessor mem a
  · rw [processors_cons_of h, List.length_cons]
    constructor
    · intro hroom
      have hlt : c.nOtherProcs.toNat < MAX_PROCS := by omega
      refine ⟨fun _ => hlt, ?_⟩
      rw [noted_nOtherProcs h hlt]
      omega
    · intro ⟨hlt, hroom⟩
      rw [noted_nOtherProcs h (hlt h)] at hroom
      omega
  · rw [processors_cons_not h, (noted_nOtherProcs_not h).1]
    exact ⟨fun hroom => ⟨fun hp => absurd hp h, hroom⟩, And.right⟩

/-! ## The loop -/

/-- A length of 0: the loop stays where it is. -/
theorem entryLoop_stuck (hbytes : 0 < bytes.toInt) (hlen : mem (p + 1) = 0) :
    ∀ s, wp (entryLoop mem fuel p bytes) (fun _ _ => False) (fun _ _ => True) s := by
  induction fuel with
  | zero => exact fun _ => trivial
  | succ fuel ih =>
    intro s
    have h0 : (0 : Byte).setWidth 32 = 0#32 := rfl
    unfold entryLoop
    rw [if_pos hbytes, wp_bind, wp_read8, hlen, h0, BitVec.add_zero, BitVec.sub_zero, wp_bind]
    exact wp_mono wp_examine (fun _ s' _ => ih s') fun _ _ _ => trivial

/-- A loop that returned has gone along a walk, with room for what it found. -/
theorem entryLoop_inv : ∀ {p bytes : Word} {s : Probe}, s.config.nOtherProcs.toNat ≤ MAX_PROCS →
    wp (entryLoop mem fuel p bytes)
      (fun _ s' => ∃ es, Walk mem p bytes es ∧ Room mem s.config es ∧
        s'.config = es.foldl (noted mem) s.config ∧ s.reads <:+ s'.reads ∧
        ∀ a ∈ es, ReadBetween s s' a) (fun _ _ => True) s := by
  induction fuel with
  | zero => exact fun _ => trivial
  | succ fuel ih =>
    intro p bytes s hle
    by_cases hbytes : 0 < bytes.toInt
    case neg =>
      unfold entryLoop
      rw [if_neg hbytes]
      exact ⟨[], .done hbytes, hle, rfl, List.suffix_refl _, fun a ha => absurd ha List.not_mem_nil⟩
    by_cases hlen : mem (p + 1) = 0
    · exact wp_mono (entryLoop_stuck hbytes hlen s) (fun _ _ h => h.elim) fun _ _ h => h
    unfold entryLoop
    rw [if_pos hbytes, wp_bind, wp_read8, wp_bind]
    refine wp_mono wp_examine (fun _ s' h => ?_) fun _ _ _ => trivial
    obtain ⟨hfits, hconfig, hread⟩ := h
    have hread : ReadBetween s s' (p + (mem (p + 1)).setWidth 32) :=
      hread.earlier (List.suffix_cons _ _)
    have hle' : s'.config.nOtherProcs.toNat ≤ MAX_PROCS := by
      rw [hconfig]
      exact noted_le hle hfits
    refine wp_mono (ih hle') (fun _ s'' h => ?_) fun _ _ h => h
    obtain ⟨es, hwalk, hrest, hs'', hlater, hreads⟩ := h
    rw [hconfig] at hrest hs''
    refine ⟨_, .next hbytes hlen hwalk, room_cons.mpr ⟨hfits, hrest⟩, hs'',
      hread.suffix.trans hlater, fun a ha => ?_⟩
    rcases List.mem_cons.mp ha with rfl | ha
    · exact hread.later hlater
    · exact (hreads a ha).earlier hread.suffix

/-- Along a walk, and with room for what is on it, the loop returns. -/
theorem Walk.entryLoop_returns (h : Walk mem p bytes es) (hroom : Room mem s.config es)
    (hfuel : es.length < fuel) :
    wp (entryLoop mem fuel p bytes) (fun _ s' => s'.config = es.foldl (noted mem) s.config)
      (fun _ _ => False) s := by
  induction h generalizing fuel s with
  | done hbytes =>
    obtain ⟨fuel, rfl⟩ := Nat.exists_eq_succ_of_ne_zero (Nat.ne_of_gt hfuel)
    unfold entryLoop
    rw [if_neg hbytes]
    exact rfl
  | @next p bytes es hbytes hlen hwalk ih =>
    obtain ⟨fuel, rfl⟩ := Nat.exists_eq_succ_of_ne_zero (Nat.ne_of_gt (Nat.zero_lt_of_lt hfuel))
    obtain ⟨hfits, hrest⟩ := room_cons.mp hroom
    unfold entryLoop
    rw [if_pos hbytes, wp_bind, wp_read8, wp_bind]
    refine wp_mono wp_examine (fun _ s' h => ?_) fun _ s' h => ?_
    · have hlen : es.length < fuel := Nat.lt_of_succ_lt_succ hfuel
      have hconfig : s'.config = noted mem s.config (p + (mem (p + 1)).setWidth 32) := h.2.1
      rw [← hconfig] at hrest
      refine wp_mono (ih hrest hlen) (fun _ s'' h => ?_) fun _ _ h => h
      rw [h, hconfig, List.foldl_cons]
    · exact absurd (hfits h.1) (Nat.not_lt_of_le h.2)

theorem Walk.unique (h : Walk mem p bytes es) (h' : Walk mem p bytes es') : es = es' := by
  induction h generalizing es' with
  | done hbytes =>
    cases h' with
    | done => rfl
    | next hbytes' => exact absurd hbytes' hbytes
  | next hbytes hlen hwalk ih =>
    cases h' with
    | done hbytes' => exact absurd hbytes hbytes'
    | next _ _ hwalk' => rw [ih hwalk']

/-! ## What the fold notes -/

theorem take_set_last {α : Type} {l : List α} {n : Nat} {x : α} (hn : n < l.length) :
    (l.set n x).take (n + 1) = l.take n ++ [x] := by
  rw [List.take_set, List.take_add_one, List.getElem?_eq_getElem hn, Option.toList_some,
    List.set_append_right _ _ (by simp [Nat.le_of_lt hn])]
  simp [Nat.le_of_lt hn]

/-- With room for them, the processors on a walk are recorded in order. -/
theorem foldl_noted (hroom : Room mem c es) :
    (es.foldl (noted mem) c).nOtherProcs.toNat =
        c.nOtherProcs.toNat + (processors mem es).length ∧
      (es.foldl (noted mem) c).apicInfo.toList.take
          (c.nOtherProcs.toNat + (processors mem es).length) =
        c.apicInfo.toList.take c.nOtherProcs.toNat ++ processors mem es := by
  induction es generalizing c with
  | nil => exact ⟨rfl, (List.append_nil _).symm⟩
  | cons a es ih =>
    obtain ⟨hfits, hrest⟩ := room_cons.mp hroom
    obtain ⟨hcount, htake⟩ := ih hrest
    rw [List.foldl_cons]
    by_cases h : IsProcessor mem a
    · have hn := noted_nOtherProcs h (hfits h)
      have hlt : c.nOtherProcs.toNat < c.apicInfo.toList.length := by
        rw [Vector.length_toList]
        exact hfits h
      rw [hn] at hcount htake
      rw [processors_cons_of h, List.length_cons, Nat.add_comm _ 1, ← Nat.add_assoc]
      refine ⟨hcount, ?_⟩
      rw [htake, noted_processor h, Vector.toList_setIfInBounds, take_set_last hlt,
        List.append_assoc, List.singleton_append]
    · obtain ⟨hn, hinfo⟩ := @noted_nOtherProcs_not mem a c h
      rw [hn] at hcount htake
      rw [hinfo] at htake
      rw [processors_cons_not h]
      exact ⟨hcount, htake⟩

theorem lastIOAPIC_cons {before : Word} : lastIOAPIC mem before (a :: es) =
    lastIOAPIC mem (if IsIOAPIC mem a then wordAt mem (a + 4) else before) es := by
  unfold lastIOAPIC
  by_cases h : IsIOAPIC mem a
  · rw [if_pos h, List.filter_cons_of_pos (by simpa using h), List.getLast?_cons]
    cases hl : (es.filter (IsIOAPIC mem ·)).getLast? <;> rfl
  · rw [if_neg h, List.filter_cons_of_neg (by simpa using h)]

theorem foldl_noted_ioAPIC : (es.foldl (noted mem) c).ioAPIC = lastIOAPIC mem c.ioAPIC es := by
  induction es generalizing c with
  | nil => rfl
  | cons a es ih =>
    rw [List.foldl_cons, ih, lastIOAPIC_cons]
    congr 1
    by_cases h : IsIOAPIC mem a
    · rw [noted_ioapic h, if_pos h]
    · rw [if_neg h]
      by_cases hp : IsProcessor mem a
      · rw [noted_processor hp]
      · rw [noted_other hp h]

variable (mem) in
/-- `s'` has what the entries at the given places say. -/
structure Noted (es : List Word) (s s' : Probe) : Prop where
  counted : s'.config.nOtherProcs.toNat = (processors mem es).length
  recorded : s'.config.apicInfo.toList.take (processors mem es).length = processors mem es
  ioAPIC : s'.config.ioAPIC = lastIOAPIC mem s.config.ioAPIC es
  total : s'.config.totalProcs.toNat = (processors mem es).length + 1

/-! ## Tables -/

section Table

variable (mem) (madt : Word)

/-- `sdt.Length` -/
def lengthOf : Word := wordAt mem (madt + 4)

/-- The `bytesForEntries` that the loop starts with. -/
def bytesForEntries : Word := lengthOf mem madt - BitVec.ofNat 32 SIZEOF_MADT

/-- The table at `madt` as a block of records. -/
def table : Records.Block where
  size := (lengthOf mem madt).toNat
  inside e := e < (lengthOf mem madt).toNat ∧ 2 ≤ (mem (madt + BitVec.ofNat 32 e + 1)).toNat
  stops _ := False
  len e := (mem (madt + BitVec.ofNat 32 e + 1)).toNat
  inside_lt _ h := h.1

/-- The entries of the table, each of at least two bytes, are at the offsets `es` and fill it. -/
def Filled (es : List Nat) : Prop := Records.Tiles (table mem madt) SIZEOF_MADT es

def entriesAt (es : List Nat) : List Word := es.map fun e => madt + BitVec.ofNat 32 e

/-- The offsets that the loop looks at, where the entries are at `es`. -/
def lookedAt : List Nat → List Nat
  | [] => []
  | _ :: es => es ++ [(lengthOf mem madt).toNat]

/-- What `readTable` is for: from `s`, in which the table at `madt` was found, `s'` has what its entries
say, and nothing but the table was read. -/
structure Parsed (es : List Nat) (s s' : Probe) : Prop extends Noted mem (entriesAt madt es) s s' where
  reads : ∀ a, ReadBetween s s' a → (a - madt).toNat < (lengthOf mem madt).toNat

end Table

variable {madt : Word} {os : List Nat} {e : Nat}

theorem tiles_head (h : Records.Tiles (table mem madt) e os) :
    os = [] ∧ e = (lengthOf mem madt).toNat ∨ ∃ rest, os = e :: rest := by
  cases h with
  | done => exact .inl ⟨rfl, rfl⟩
  | next => exact .inr ⟨_, rfl⟩

theorem toInt_ofNat_pos {k : Nat} (hpos : 0 < k) (hk : k < 2 ^ 31) :
    0 < (BitVec.ofNat 32 k).toInt := by
  rw [BitVec.toInt_eq_toNat_cond, BitVec.toNat_ofNat, Nat.mod_eq_of_lt (by omega)]
  split <;> omega

/-- The walk over a table of less than 2 GB. -/
theorem walk_of_tiles (h : Records.Tiles (table mem madt) e os)
    (hsmall : (lengthOf mem madt).toNat - e < 2 ^ 31) :
    Walk mem (madt + BitVec.ofNat 32 e) (BitVec.ofNat 32 ((lengthOf mem madt).toNat - e))
      (entriesAt madt (lookedAt mem madt os)) := by
  have hsize : (table mem madt).size = (lengthOf mem madt).toNat := rfl
  induction h with
  | done =>
    rw [hsize, Nat.sub_self]
    exact .done (by decide)
  | @next e os hin hpos h ih =>
    have hlt := hin.1
    have h32 := (lengthOf mem madt).isLt
    have hle := h.le
    rw [hsize] at hle
    have hlen : ((mem (madt + BitVec.ofNat 32 e + 1)).setWidth 32).toNat = (table mem madt).len e :=
      BitVec.toNat_setWidth_of_le (by decide)
    have hzero : mem (madt + BitVec.ofNat 32 e + 1) ≠ 0 := by
      intro h0
      have hlen0 : (table mem madt).len e = 0 := congrArg BitVec.toNat h0
      omega
    have hnext : madt + BitVec.ofNat 32 e + (mem (madt + BitVec.ofNat 32 e + 1)).setWidth 32 =
        madt + BitVec.ofNat 32 (e + (table mem madt).len e) := by
      rw [BitVec.add_assoc, BitVec.ofNat_add, ← hlen, BitVec.ofNat_toNat, BitVec.setWidth_eq]
    have hleft := Records.left_sub (e := e) (z := (lengthOf mem madt).toNat)
      (n := (mem (madt + BitVec.ofNat 32 e + 1)).setWidth 32) h32 (by rwa [hlen])
    rw [hlen] at hleft
    have hrest := ih (by omega)
    rw [← hnext, ← hleft] at hrest
    have hwalk := Walk.next (toInt_ofNat_pos (by omega) hsmall) hzero hrest
    rw [hnext] at hwalk
    -- what is looked at next is the next entry, or what is behind the table
    rcases tiles_head h with ⟨rfl, hend⟩ | ⟨rest, rfl⟩
    · rw [hend] at hwalk
      exact hwalk
    · exact hwalk

/-! ## The table as a whole -/

variable (mem madt) in
/-- The state that the loop starts in. -/
def begun (s : Probe) : Probe :=
  { config := { s.config with localAPIC := wordAt mem (madt + 36), madtFlags := wordAt mem (madt + 40),
                              nOtherProcs := 0 },
    reads := (madt + 4, 4) :: (madt + 40, 4) :: (madt + 36, 4) :: s.reads }

theorem wp_readTable {Q : Unit → Probe → Prop} {E : Stop → Probe → Prop} :
    wp (readTable mem fuel madt) Q E s ↔
      wp (entryLoop mem fuel (madt + BitVec.ofNat 32 SIZEOF_MADT) (bytesForEntries mem madt))
        (fun _ s' => Q () { s' with config :=
          { s'.config with totalProcs := s'.config.nOtherProcs + 1 } }) E (begun mem madt s) := by
  unfold readTable
  simp only [wp_bind, wp_read32, wp_modify]
  rfl

theorem room_begun : Room mem (begun mem madt s).config es ↔
    (processors mem es).length ≤ MAX_PROCS := by
  have h0 : (begun mem madt s).config.nOtherProcs.toNat = 0 := rfl
  unfold Room
  rw [h0, Nat.zero_add]

theorem noted_of_foldl (hroom : (processors mem es).length ≤ MAX_PROCS)
    (h : s'.config = es.foldl (noted mem) (begun mem madt s).config) :
    Noted mem es s { s' with config :=
      { s'.config with totalProcs := s'.config.nOtherProcs + 1 } } := by
  have hbegun : Room mem (begun mem madt s).config es := room_begun.mpr hroom
  obtain ⟨hcount, htake⟩ := foldl_noted hbegun
  have h0 : (begun mem madt s).config.nOtherProcs.toNat = 0 := rfl
  have h1 : (1 : Word).toNat = 1 := rfl
  have h16 : MAX_PROCS = 16 := rfl
  rw [← h, h0, Nat.zero_add] at hcount htake
  rw [List.take_zero, List.nil_append] at htake
  refine ⟨hcount, htake, ?_, ?_⟩
  · have hio : (es.foldl (noted mem) (begun mem madt s).config).ioAPIC =
        lastIOAPIC mem (begun mem madt s).config.ioAPIC es := foldl_noted_ioAPIC
    rw [← h] at hio
    exact hio
  · simp only [BitVec.toNat_add, hcount, h1]
    omega

/-- A run of `readTable` that returned. -/
theorem readTable_inv : wp (readTable mem fuel madt)
    (fun _ s' => ∃ es, Walk mem (madt + BitVec.ofNat 32 SIZEOF_MADT) (bytesForEntries mem madt) es ∧
      (processors mem es).length ≤ MAX_PROCS ∧ Noted mem es s s' ∧ ∀ a ∈ es, ReadBetween s s' a)
    (fun _ _ => True) s := by
  rw [wp_readTable]
  refine wp_mono (entryLoop_inv (Nat.zero_le _)) (fun _ s' h => ?_) fun _ _ h => h
  obtain ⟨es, hwalk, hroom, hconfig, -, hreads⟩ := h
  rw [room_begun] at hroom
  refine ⟨es, hwalk, hroom, noted_of_foldl hroom hconfig, fun a ha => ?_⟩
  exact (hreads a ha).earlier ⟨[_, _, _], rfl⟩

/-- A run of `readTable` along a walk with room for what is on it. -/
theorem Walk.readTable_returns
    (h : Walk mem (madt + BitVec.ofNat 32 SIZEOF_MADT) (bytesForEntries mem madt) es)
    (hroom : (processors mem es).length ≤ MAX_PROCS) (hfuel : es.length < fuel) :
    wp (readTable mem fuel madt) (fun _ s' => Noted mem es s s') (fun _ _ => False) s := by
  rw [wp_readTable]
  exact wp_mono (h.entryLoop_returns (room_begun.mpr hroom) hfuel)
    (fun _ _ hconfig => noted_of_foldl hroom hconfig) fun _ _ h => h

/-- For every contents of memory: the loop ends and stores nothing behind `apicInfo` exactly if the
chain of lengths leads over the end of the table, without a length of 0, and at most `MAX_PROCS` of
the places that it leads to hold a processor. -/
theorem readTable_bounded_iff (mem : Bytes) (madt : Word) (s : Probe) :
    (∃ fuel s', readTable mem fuel madt s = .ok () s') ↔
      ∃ es, Walk mem (madt + BitVec.ofNat 32 SIZEOF_MADT) (bytesForEntries mem madt) es ∧
        (processors mem es).length ≤ MAX_PROCS := by
  constructor
  · rintro ⟨fuel, s', hrun⟩
    obtain ⟨es, hwalk, hroom, -⟩ := wp_ok readTable_inv hrun
    exact ⟨es, hwalk, hroom⟩
  · rintro ⟨es, hwalk, hroom⟩
    obtain ⟨_, s', hrun, -⟩ := wp_returns
      (hwalk.readTable_returns (s := s) hroom (Nat.lt_succ_self es.length))
    exact ⟨_, s', hrun⟩

/-- One byte of entries, of length 0. -/
def zeroLength : Bytes := fun a => if a = 4 then 45 else 0

def noConfig : Config where
  memSize := 0
  nOtherProcs := 0
  totalProcs := 0
  localAPIC := 0
  madtFlags := 0
  ioAPIC := 0
  apicInfo := Vector.replicate _ ⟨0, 0, 0⟩
  oemid := Vector.replicate _ 0

theorem readTable_unbounded : ¬∀ mem madt s, ∃ fuel s', readTable mem fuel madt s = .ok () s' := by
  intro h
  obtain ⟨fuel, s', hrun⟩ := h zeroLength 0 ⟨noConfig, []⟩
  have hstuck : wp (readTable zeroLength fuel 0) (fun _ _ => False) (fun _ _ => True)
      ⟨noConfig, []⟩ := by
    rw [wp_readTable]
    exact entryLoop_stuck (by decide) (by decide) _
  exact wp_ok hstuck hrun

/-! ## Tables that are filled -/

theorem bytesForEntries_of_filled (h : Filled mem madt os) : bytesForEntries mem madt =
    BitVec.ofNat 32 ((lengthOf mem madt).toNat - SIZEOF_MADT) := by
  have hle : SIZEOF_MADT ≤ (lengthOf mem madt).toNat := h.le
  have h32 := (lengthOf mem madt).isLt
  have hm : SIZEOF_MADT = 44 := rfl
  rw [← BitVec.toNat_inj, bytesForEntries, BitVec.toNat_sub, BitVec.toNat_ofNat, BitVec.toNat_ofNat]
  omega

/-- The walk over a table that its entries fill: all but the first one, and what is behind the table. -/
theorem walk_of_filled (h : Filled mem madt os) (hbytes : 0 < (bytesForEntries mem madt).toInt) :
    Walk mem (madt + BitVec.ofNat 32 SIZEOF_MADT) (bytesForEntries mem madt)
      (entriesAt madt (lookedAt mem madt os)) := by
  have hb := bytesForEntries_of_filled h
  have h32 := (lengthOf mem madt).isLt
  have hsmall : (lengthOf mem madt).toNat - SIZEOF_MADT < 2 ^ 31 := by
    by_contra hbig
    rw [hb, BitVec.toInt_eq_toNat_cond, BitVec.toNat_ofNat,
      Nat.mod_eq_of_lt (by omega)] at hbytes
    split at hbytes <;> omega
  rw [hb]
  exact walk_of_tiles h hsmall

/-- What `readTable` does with a table that its entries fill, as long as there is room. -/
theorem readTable_of_filled (h : Filled mem madt os) (hbytes : 0 < (bytesForEntries mem madt).toInt)
    (hroom : (processors mem (entriesAt madt (lookedAt mem madt os))).length ≤ MAX_PROCS) :
    ∃ fuel s', readTable mem fuel madt s = .ok () s' ∧
      Noted mem (entriesAt madt (lookedAt mem madt os)) s s' := by
  obtain ⟨_, s', hrun, hnoted⟩ := wp_returns
    ((walk_of_filled h hbytes).readTable_returns (s := s) hroom (Nat.lt_succ_self _))
  exact ⟨_, s', hrun, hnoted⟩

/-- The place behind the table is looked at. -/
theorem behind_mem_lookedAt (h : Filled mem madt os) (hbytes : 0 < (bytesForEntries mem madt).toInt) :
    madt + lengthOf mem madt ∈ entriesAt madt (lookedAt mem madt os) := by
  have hb := bytesForEntries_of_filled h
  rcases tiles_head h with ⟨rfl, hend⟩ | ⟨rest, rfl⟩
  · rw [hb, hend, Nat.sub_self] at hbytes
    exact absurd hbytes (by decide)
  · refine List.mem_map.mpr ⟨_, List.mem_append_right _ (List.mem_singleton.mpr rfl), ?_⟩
    rw [BitVec.ofNat_toNat, BitVec.setWidth_eq]

theorem not_parsed (h : Filled mem madt os) (hbytes : 0 < (bytesForEntries mem madt).toInt)
    (hrun : readTable mem fuel madt s = .ok () s') : ¬Parsed mem madt os s s' := by
  intro hp
  obtain ⟨es, hwalk, -, -, hreads⟩ := wp_ok readTable_inv hrun
  rw [hwalk.unique (walk_of_filled h hbytes)] at hreads
  have hlt := hp.reads _ (hreads _ (behind_mem_lookedAt h hbytes))
  rw [BitVec.add_comm, BitVec.add_sub_cancel] at hlt
  exact Nat.lt_irrefl _ hlt

/-- The fields of the table's head are in the table. -/
theorem reads_begun (hlen : SIZEOF_MADT ≤ (lengthOf mem madt).toNat) :
    ReadBetween s (begun mem madt s) a → (a - madt).toNat < (lengthOf mem madt).toNat := by
  have hm : SIZEOF_MADT = 44 := rfl
  have hin : ∀ o i : Nat, o + i < 44 →
      (madt + BitVec.ofNat 32 o + BitVec.ofNat 32 i - madt).toNat < (lengthOf mem madt).toNat := by
    intro o i hi
    rw [BitVec.add_assoc, ← BitVec.ofNat_add, toNat_sub_self_add (by omega)]
    omega
  rintro ⟨new, hnew, p, hp, i, hi, rfl⟩
  have hhead : [(madt + 4, 4), (madt + 40, 4), (madt + 36, 4)] ++ s.reads = new ++ s.reads := hnew
  obtain rfl := List.append_cancel_right hhead
  simp only [List.mem_cons, List.not_mem_nil, or_false] at hp
  rcases hp with rfl | rfl | rfl
  · exact hin 4 i (by simp only at hi; omega)
  · exact hin 40 i (by simp only at hi; omega)
  · exact hin 36 i (by simp only at hi; omega)

theorem parsed_of_no_bytes (h : Filled mem madt os) (hbytes : ¬0 < (bytesForEntries mem madt).toInt)
    (hnone : processors mem (entriesAt madt os) = [])
    (hio : lastIOAPIC mem s.config.ioAPIC (entriesAt madt os) = s.config.ioAPIC) :
    ∃ fuel s', readTable mem fuel madt s = .ok () s' ∧ Parsed mem madt os s s' := by
  have hrun : wp (readTable mem 1 madt) (fun _ s' => Parsed mem madt os s s') (fun _ _ => False) s := by
    rw [wp_readTable]
    unfold entryLoop
    rw [if_neg hbytes]
    have hnothing : (begun mem madt s).config =
        ([] : List Word).foldl (noted mem) (begun mem madt s).config := rfl
    have hnoted : Noted mem [] s _ := noted_of_foldl (Nat.zero_le _) hnothing
    refine ⟨⟨?_, ?_, ?_, ?_⟩, fun a ha => reads_begun h.le ha⟩
    · rw [hnone]
      exact hnoted.counted
    · rw [hnone]
      rfl
    · rw [hio]
      exact hnoted.ioAPIC
    · rw [hnone]
      exact hnoted.total
  obtain ⟨_, s', hret, hp⟩ := wp_returns hrun
  exact ⟨1, s', hret, hp⟩

theorem configInit_of_findTable {memInfo : MemInfo} {s₁ : Probe}
    (hfind : findTable mem memInfo s = .ok madt s₁) :
    configInit mem memInfo fuel s = readTable mem fuel madt s₁ := by
  unfold configInit
  simp only [bind, EStateM.bind, hfind]

/-- The table that was found is parsed exactly if the loop has nothing to do: there are no bytes of
entries, as a signed number, and the entries name no processor and no other I/O APIC. -/
theorem configInit_parses_iff {memInfo : MemInfo} {s₁ : Probe}
    (hfind : findTable mem memInfo s = .ok madt s₁) (hfilled : Filled mem madt os) :
    (∃ fuel s', configInit mem memInfo fuel s = .ok () s' ∧ Parsed mem madt os s₁ s') ↔
      ¬0 < (bytesForEntries mem madt).toInt ∧ processors mem (entriesAt madt os) = [] ∧
        lastIOAPIC mem s₁.config.ioAPIC (entriesAt madt os) = s₁.config.ioAPIC := by
  simp only [configInit_of_findTable hfind]
  constructor
  · rintro ⟨fuel, s', hrun, hp⟩
    by_cases hbytes : 0 < (bytesForEntries mem madt).toInt
    · exact absurd hp (not_parsed hfilled hbytes hrun)
    obtain ⟨es, hwalk, -, hnoted, -⟩ := wp_ok readTable_inv hrun
    rw [hwalk.unique (.done hbytes)] at hnoted
    have hnone : (processors mem (entriesAt madt os)).length = 0 :=
      hp.counted.symm.trans hnoted.counted
    exact ⟨hbytes, List.length_eq_zero_iff.mp hnone, hp.ioAPIC.symm.trans hnoted.ioAPIC⟩
  · rintro ⟨hbytes, hnone, hio⟩
    exact parsed_of_no_bytes hfilled hbytes hnone hio

/-! ## A machine whose first entry is another processor -/

/-- From `0xe0000` on: the root pointer, the root table, and the processor table with one entry. -/
def firmwareBytes : List Byte :=
  rsdSignature ++ [0, 0, 0, 0, 0, 0, 0, 0] ++ [0x20, 0x00, 0x0e, 0x00] ++ List.replicate 12 0 ++
    ([0x52, 0x53, 0x44, 0x54] ++ [40, 0, 0, 0] ++ List.replicate 28 0 ++ [0x50, 0x00, 0x0e, 0x00]) ++
    List.replicate 8 0 ++ (apicSignature ++ [52, 0, 0, 0] ++ List.replicate 36 0) ++
    [0, 8, 1, 1, 1, 0, 0, 0]

def firmware : Bytes := fun a => firmwareBytes.getD (a - 0xe0000).toNat 0

theorem findTable_firmware : ∃ s₁, findTable firmware ⟨0, 0, 0, 0⟩ ⟨noConfig, []⟩ = .ok 0xe0050 s₁ :=
  ⟨_, rfl⟩

/-- Its only entry, a processor. -/
theorem filled_firmware : Filled firmware 0xe0050 [44] ∧
    processors firmware (entriesAt 0xe0050 [44]) = [⟨1, 1, 1⟩] := by
  refine ⟨.next (e := 44) ?_ ?_ ?_, rfl⟩
  · exact ⟨by decide, by decide⟩
  · exact (by decide : 0 < 8)
  · exact .done

theorem configInit_skips_first : ¬∀ (mem : Bytes) (memInfo : MemInfo) (s s₁ : Probe) (madt : Word)
    (os : List Nat), findTable mem memInfo s = .ok madt s₁ → Filled mem madt os →
    (processors mem (entriesAt madt os)).length ≤ MAX_PROCS →
    ∃ fuel s', configInit mem memInfo fuel s = .ok () s' ∧ Parsed mem madt os s₁ s' := by
  intro h
  obtain ⟨s₁, hfind⟩ := findTable_firmware
  obtain ⟨hfilled, hone⟩ := filled_firmware
  obtain ⟨fuel, s', hrun, hp⟩ := h _ _ _ _ _ _ hfind hfilled (by rw [hone]; decide)
  rw [configInit_of_findTable hfind] at hrun
  exact not_parsed hfilled (by decide) hrun hp

theorem configInit_parses_iff_firmware : ∃ s₁,
    findTable firmware ⟨0, 0, 0, 0⟩ ⟨noConfig, []⟩ = .ok 0xe0050 s₁ ∧
      ((∃ fuel s', configInit firmware ⟨0, 0, 0, 0⟩ fuel ⟨noConfig, []⟩ = .ok () s' ∧
          Parsed firmware 0xe0050 [44] s₁ s') ↔
        ¬0 < (bytesForEntries firmware 0xe0050).toInt ∧
          processors firmware (entriesAt 0xe0050 [44]) = [] ∧
          lastIOAPIC firmware s₁.config.ioAPIC (entriesAt 0xe0050 [44]) = s₁.config.ioAPIC) := by
  obtain ⟨s₁, hfind⟩ := findTable_firmware
  exact ⟨s₁, hfind, configInit_parses_iff hfind filled_firmware.1⟩

end OsKernel.Acpi
