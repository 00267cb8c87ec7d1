import OsKernel.Block.ReadAll
import OsKernel.Lib.Runs
import OsKernel.Lib.Words
import Mathlib.Logic.Function.Basic

/-!
# One file offset, several readers

`fork` shares the `FileDescriptor` objects. `FileDescriptor::read` hands its `offset` to
`read_all` and adds the count when that returns; every block in between may give the processor
away, and no lock is held. The calls of any number of processes on one descriptor are steps
here: the fetch of the offset, each piece that `read_all` gets from the disk, the update.

In `Sys/Model.lean` a `read` is one step, and then this question cannot be asked. Here nothing
is left of a call but the three places where it touches what is shared, and the bytes
themselves do not matter, only which ones a call delivers: `ranges` has the start and the
length of each finished call. That the bytes of a range are those of the file is
`Block/ReadAll.lean`, and under interleavings of the disk accesses `Ide/Interleaved.lean`.

The result goes both ways, and so there are two invariants. As long as the calls that read
bytes do not meet, all is delivered in order and at most one of them is under way (`Serial`).
When one starts next to another both have fetched the same offset, and from then on two ranges
begin there, or will (`Clash`); nothing that happens later undoes it, since a range that was
delivered stays delivered. A call for no bytes, or behind the end of the file, may start
whenever it likes: it delivers nothing, so `Alone` does not ask about it.
-/

set_option autoImplicit false

namespace OsKernel.Sys.Offset

open Block
open Lib hiding Word

/-- Where a process is in `FileDescriptor::read`. -/
inductive Reader
  | out
  /-- in `read_all(offset, len, ..)`, which has delivered `count` bytes -/
  | inside (offset len : Word) (count : Nat)

structure State where
  /-- `FileDescriptor::offset` -/
  offset : Word
  reader : Nat → Reader
  /-- what the finished calls delivered, start and count, the latest first -/
  ranges : List (Nat × Nat)

inductive Event
  | fetch (p : Nat) (len : Word)
  /-- a block is read; meanwhile others run -/
  | piece (p : Nat)
  /-- `offset += cnt` -/
  | update (p : Nat)

def State.setReader (s : State) (p : Nat) (r : Reader) : State :=
  { s with reader := Function.update s.reader p r }

/-- The part of the block at `offset + count` that is wanted. -/
def piece (d : Device) (offset len : Word) (count : Nat) : Nat :=
  min (d.blockSize.toNat - (offset.toNat + count) % d.blockSize.toNat)
    (d.available offset len - count)

def step (d : Device) (s : State) : Event → Option State
  | .fetch p len =>
    match s.reader p with
    | .out =>
      -- the call returns -1 if the offset is behind the end
      if d.size < s.offset then some s else some (s.setReader p (.inside s.offset len 0))
    | .inside _ _ _ => none
  | .piece p =>
    match s.reader p with
    | .inside offset len count =>
      if count < d.available offset len then
        some (s.setReader p (.inside offset len (count + piece d offset len count)))
      else none
    | .out => none
  | .update p =>
    match s.reader p with
    | .inside offset len count =>
      if count = d.available offset len then
        some
          { offset := s.offset + BitVec.ofNat 32 count
            reader := Function.update s.reader p .out
            ranges := (offset.toNat, count) :: s.ranges }
      else none
    | .out => none

/-- Nobody reads. -/
def State.init (start : Word) : State := ⟨start, fun _ => .out, []⟩

/-! ## What is asked of a run -/

/-- How many bytes were delivered. -/
def total (ranges : List (Nat × Nat)) : Nat := (ranges.map Prod.snd).sum

/-- `x` is one of the bytes of the range. -/
def In (x : Nat) (r : Nat × Nat) : Prop := r.1 ≤ x ∧ x < r.1 + r.2

/-- The ranges are one range from `start` on, in parts that do not overlap, and the offset has moved
by its length. -/
structure Exact (start : Nat) (s : State) : Prop where
  apart : s.ranges.Pairwise fun r r' => ∀ x, In x r → ¬In x r'
  covers : ∀ x, (∃ r ∈ s.ranges, In x r) ↔ In x (start, total s.ranges)
  offset : s.offset.toNat = start + total s.ranges

/-- Process `p` is reading bytes from `o` on. -/
def Reads (d : Device) (s : State) (o : Word) (p : Nat) : Prop :=
  ∃ len count, s.reader p = .inside o len count ∧ len ≠ 0 ∧ o < d.size

/-- A call that reads bytes starts only when no other is reading bytes. -/
def Alone (d : Device) (s : State) : Event → Prop
  | .fetch _ len => len ≠ 0 → s.offset < d.size → ∀ o p, ¬Reads d s o p
  | .piece _ | .update _ => True

variable {d : Device} {s t : State} {start : Nat} {e : Event}

theorem available_pos {offset len : Word} (hlen : len ≠ 0) (hoff : offset < d.size) :
    0 < d.available offset len := by
  have hn : len.toNat ≠ 0 := fun h => hlen (BitVec.eq_of_toNat_eq h)
  rw [BitVec.lt_def] at hoff
  unfold Device.available
  omega

theorem available_zero {offset len : Word} (h : ¬(len ≠ 0 ∧ offset < d.size)) :
    d.available offset len = 0 := by
  unfold Device.available
  by_cases hlen : len = 0
  · rw [hlen]
    exact Nat.zero_min _
  · have hoff : ¬offset < d.size := fun ho => h ⟨hlen, ho⟩
    rw [BitVec.lt_def] at hoff
    omega

/-! ## Steps -/

/-- What a step does. -/
inductive Does (d : Device) (s : State) : Event → State → Prop
  | refused {p : Nat} {len : Word} (hout : s.reader p = .out) (hoff : d.size < s.offset) :
    Does d s (.fetch p len) s
  | fetched {p : Nat} {len : Word} (hout : s.reader p = .out) (hoff : ¬d.size < s.offset) :
    Does d s (.fetch p len) (s.setReader p (.inside s.offset len 0))
  | moved {p : Nat} {offset len : Word} {count : Nat} (hin : s.reader p = .inside offset len count)
    (count' : Nat) : Does d s (.piece p) (s.setReader p (.inside offset len count'))
  | updated {p : Nat} {offset len : Word}
    (hin : s.reader p = .inside offset len (d.available offset len)) :
    Does d s (.update p)
      { offset := s.offset + BitVec.ofNat 32 (d.available offset len)
        reader := Function.update s.reader p .out
        ranges := (offset.toNat, d.available offset len) :: s.ranges }

theorem step_does (h : step d s e = some t) : Does d s e t := by
  cases e with
  | fetch p len =>
    simp only [step] at h
    split at h
    · rename_i hout
      split at h
      · rename_i hoff
        cases h
        exact .refused hout hoff
      · rename_i hoff
        cases h
        exact .fetched hout hoff
    · cases h
  | piece p =>
    simp only [step] at h
    split at h
    · rename_i hin
      split at h
      · cases h
        exact .moved hin _
      · cases h
    · cases h
  | update p =>
    simp only [step] at h
    split at h
    · rename_i hin
      split at h
      · rename_i hcount
        cases h
        subst hcount
        exact .updated hin
      · cases h
    · cases h

/-! ## One reader at a time

While one process is reading, the offset is the sum of what has been delivered, and the bytes it
is reading begin there. `Serial` says this; a second reader must not start before the first has
moved the offset. -/

/-- All is delivered in order so far, and at most one process is reading bytes, from the offset on. -/
structure Serial (d : Device) (start : Nat) (s : State) : Prop where
  exact : Exact start s
  here : ∀ {o p}, Reads d s o p → o = s.offset
  one : ∀ {o o' p p'}, Reads d s o p → Reads d s o' p' → p = p'

theorem total_cons (r : Nat × Nat) (ranges : List (Nat × Nat)) :
    total (r :: ranges) = r.2 + total ranges := by
  simp [total]

/-- A range of `n` bytes at the offset is delivered. -/
theorem Exact.cons (h : Exact start s) {n o : Nat} {s' : State} (ho : n = 0 ∨ o = s.offset.toNat)
    (hoff : s'.offset.toNat = s.offset.toNat + n) (hranges : s'.ranges = (o, n) :: s.ranges) :
    Exact start s' where
  apart := by
    rw [hranges]
    refine List.pairwise_cons.mpr ⟨fun r hr x hx hxr => ?_, h.apart⟩
    have hin := (h.covers x).mp ⟨r, hr, hxr⟩
    have hoffset := h.offset
    unfold In at hx hin
    dsimp only at hx hin
    omega
  covers x := by
    rw [hranges]
    simp only [List.mem_cons, exists_eq_or_imp, h.covers x, total_cons]
    have hoffset := h.offset
    unfold In
    dsimp only
    omega
  offset := by
    rw [hranges, total_cons, hoff, h.offset]
    dsimp only
    omega

/-- Who reads after a process has got to `r`. -/
theorem reads_set {p q : Nat} {r : Reader} {o : Word} {s' : State}
    (hreader : s'.reader = Function.update s.reader p r) (h : Reads d s' o q) :
    (q = p ∧ ∃ len count, r = .inside o len count ∧ len ≠ 0 ∧ o < d.size) ∨ (q ≠ p ∧ Reads d s o q) := by
  obtain ⟨len, count, hin, hlen, ho⟩ := h
  rw [hreader] at hin
  by_cases hq : q = p
  · subst hq
    rw [Function.update_self] at hin
    exact .inl ⟨rfl, len, count, hin, hlen, ho⟩
  · rw [Function.update_of_ne hq] at hin
    exact .inr ⟨hq, len, count, hin, hlen, ho⟩

theorem Serial.fetched (S : Serial d start s) {p : Nat} {len : Word}
    (hok : Alone d s (.fetch p len)) : Serial d start (s.setReader p (.inside s.offset len 0)) where
  exact := ⟨S.exact.apart, S.exact.covers, S.exact.offset⟩
  here hr := by
    rcases reads_set rfl hr with ⟨-, _, _, heq, -⟩ | ⟨-, hr⟩
    · cases heq
      rfl
    · exact S.here hr
  one hr hr' := by
    rcases reads_set rfl hr with ⟨rfl, _, _, heq, hlen, ho⟩ | ⟨-, hs⟩
    · rcases reads_set rfl hr' with ⟨rfl, -⟩ | ⟨-, hs'⟩
      · rfl
      · cases heq
        exact absurd hs' (hok hlen ho _ _)
    · rcases reads_set rfl hr' with ⟨rfl, _, _, heq, hlen, ho⟩ | ⟨-, hs'⟩
      · cases heq
        exact absurd hs (hok hlen ho _ _)
      · exact S.one hs hs'

theorem Serial.moved (S : Serial d start s) {p : Nat} {offset len : Word} {count : Nat}
    (hin : s.reader p = .inside offset len count) (count' : Nat) :
    Serial d start (s.setReader p (.inside offset len count')) := by
  have hback : ∀ {o q}, Reads d (s.setReader p (.inside offset len count')) o q → Reads d s o q := by
    intro o q hr
    rcases reads_set rfl hr with ⟨rfl, _, _, heq, hlen, ho⟩ | ⟨-, hr⟩
    · cases heq
      exact ⟨_, _, hin, hlen, ho⟩
    · exact hr
  exact
    { exact := ⟨S.exact.apart, S.exact.covers, S.exact.offset⟩
      here := fun hr => S.here (hback hr)
      one := fun hr hr' => S.one (hback hr) (hback hr') }

theorem Serial.updated (S : Serial d start s) {p : Nat} {offset len : Word}
    (hin : s.reader p = .inside offset len (d.available offset len)) :
    Serial d start
      { offset := s.offset + BitVec.ofNat 32 (d.available offset len)
        reader := Function.update s.reader p .out
        ranges := (offset.toNat, d.available offset len) :: s.ranges } := by
  have hback : ∀ {o q}, Reads d ⟨s.offset + BitVec.ofNat 32 (d.available offset len),
      Function.update s.reader p .out, (offset.toNat, d.available offset len) :: s.ranges⟩ o q →
      q ≠ p ∧ Reads d s o q := by
    intro o q hr
    rcases reads_set rfl hr with ⟨-, _, _, heq, -⟩ | hr
    · cases heq
    · exact hr
  by_cases hreads : len ≠ 0 ∧ offset < d.size
  · -- the only reader is done
    have hp : Reads d s offset p := ⟨len, _, hin, hreads⟩
    have hhere := S.here hp
    have hno : ∀ {o q}, ¬(q ≠ p ∧ Reads d s o q) := fun ⟨hne, hr⟩ => hne (S.one hr hp)
    have hoff : (s.offset + BitVec.ofNat 32 (d.available offset len)).toNat =
        s.offset.toNat + d.available offset len := by
      have hlt := d.size.isLt
      have hle := Nat.min_le_right len.toNat (d.size.toNat - offset.toNat)
      have hsize := hreads.2
      rw [BitVec.lt_def] at hsize
      rw [BitVec.toNat_add, BitVec.toNat_ofNat, ← hhere]
      unfold Device.available
      rw [Nat.mod_eq_of_lt (by omega : min len.toNat (d.size.toNat - offset.toNat) < 2 ^ 32)]
      exact Nat.mod_eq_of_lt (by omega)
    exact
      { exact := S.exact.cons (.inr (congrArg BitVec.toNat hhere)) hoff rfl
        here := fun hr => absurd (hback hr) hno
        one := fun hr => absurd (hback hr) hno }
  · have hzero := available_zero hreads
    have hsame : s.offset + BitVec.ofNat 32 (d.available offset len) = s.offset := by
      rw [hzero]
      exact BitVec.add_zero _
    exact
      { exact := S.exact.cons (.inl hzero) (by rw [hsame, hzero]; rfl) rfl
        here := fun hr => (S.here (hback hr).2).trans hsame.symm
        one := fun hr hr' => S.one (hback hr).2 (hback hr').2 }

theorem Serial.step (S : Serial d start s) (hok : Alone d s e) (hs : Offset.step d s e = some t) :
    Serial d start t := by
  cases step_does hs with
  | refused _ _ => exact S
  | fetched _ _ => exact S.fetched hok
  | moved hin count' => exact S.moved hin count'
  | updated hin => exact S.updated hin

theorem Serial.init (start : Word) : Serial d start.toNat (.init start) where
  exact :=
    { apart := .nil
      covers := fun x => by simp [State.init, In, total]
      offset := rfl }
  here := by
    rintro o p ⟨_, _, hin, -⟩
    cases hin
  one := by
    rintro o o' p p' ⟨_, _, hin, -⟩
    cases hin

/-! ## Two readers at a time

The other direction: if a second reader starts from the same offset and bytes are left, then
whatever comes afterwards two delivered ranges overlap. `Clash` is kept by every step, so the run
need not be followed in detail. -/

/-- How many finished calls delivered bytes from `o` on. -/
def finished (o : Word) (s : State) : Nat :=
  s.ranges.countP fun r => decide (r.1 = o.toNat) && decide (0 < r.2)

/-- Two calls read bytes from `o` on, or have done so. -/
def Clash (d : Device) (o : Word) (s : State) : Prop :=
  (∃ p q, p ≠ q ∧ Reads d s o p ∧ Reads d s o q) ∨
    (∃ p, Reads d s o p ∧ 1 ≤ finished o s) ∨ 2 ≤ finished o s

/-- A call goes on reading, or it is finished. -/
theorem Reads.step {o : Word} {p : Nat} (h : Reads d s o p) (hs : Does d s e t) :
    Reads d t o p ∨ (e = .update p ∧ finished o t = finished o s + 1) := by
  obtain ⟨len, count, hin, hlen, ho⟩ := h
  cases hs with
  | refused _ _ => exact .inl ⟨len, count, hin, hlen, ho⟩
  | @fetched q len' hout _ =>
    have hne : p ≠ q := fun h => by
      rw [h, hout] at hin
      cases hin
    exact .inl ⟨len, count, (Function.update_of_ne hne _ _).trans hin, hlen, ho⟩
  | @moved q offset len' count₀ hin' count' =>
    by_cases hq : p = q
    · subst hq
      rw [hin] at hin'
      cases hin'
      exact .inl ⟨len, count', Function.update_self _ _ _, hlen, ho⟩
    · exact .inl ⟨len, count, (Function.update_of_ne hq _ _).trans hin, hlen, ho⟩
  | @updated q offset len' hin' =>
    by_cases hq : p = q
    · subst hq
      rw [hin] at hin'
      cases hin'
      refine .inr ⟨rfl, ?_⟩
      have hpos := available_pos hlen ho
      unfold finished
      rw [List.countP_cons_of_pos (by simp [hpos])]
    · exact .inl ⟨len, count, (Function.update_of_ne hq _ _).trans hin, hlen, ho⟩

/-- Nothing delivered is forgotten. -/
theorem finished_le (o : Word) (hs : Does d s e t) : finished o s ≤ finished o t := by
  cases hs with
  | refused _ _ => exact Nat.le_refl _
  | fetched _ _ => exact Nat.le_refl _
  | moved _ _ => exact Nat.le_refl _
  | updated _ =>
    unfold finished
    rw [List.countP_cons]
    exact Nat.le_add_right _ _

theorem Clash.step {o : Word} (h : Clash d o s) (hs : Does d s e t) : Clash d o t := by
  have hle := finished_le o hs
  rcases h with ⟨p, q, hne, hp, hq⟩ | ⟨p, hp, hone⟩ | htwo
  · rcases hp.step hs with hp' | ⟨he, hp'⟩
    · rcases hq.step hs with hq' | ⟨-, hq'⟩
      · exact .inl ⟨p, q, hne, hp', hq'⟩
      · exact .inr (.inl ⟨p, hp', by omega⟩)
    · rcases hq.step hs with hq' | ⟨he', -⟩
      · exact .inr (.inl ⟨q, hq', by omega⟩)
      · rw [he] at he'
        cases he'
        exact absurd rfl hne
  · rcases hp.step hs with hp' | ⟨-, hp'⟩
    · exact .inr (.inl ⟨p, hp', Nat.le_trans hone hle⟩)
    · exact .inr (.inr (by omega))
  · exact .inr (.inr (Nat.le_trans htwo hle))

/-- When all calls have returned, two of the ranges begin at `o`. -/
theorem Clash.overlap {o : Word} (h : Clash d o s) (hout : ∀ p, s.reader p = .out) :
    ¬Exact start s := by
  have hno : ∀ p, ¬Reads d s o p := by
    rintro p ⟨_, _, hin, -⟩
    rw [hout p] at hin
    cases hin
  rcases h with ⟨p, _, _, hp, _⟩ | ⟨p, hp, _⟩ | htwo
  · exact absurd hp (hno p)
  · exact absurd hp (hno p)
  intro hex
  unfold finished at htwo
  rw [List.countP_eq_length_filter] at htwo
  have hapart := hex.apart.filter fun r => decide (r.1 = o.toNat) && decide (0 < r.2)
  cases hl : s.ranges.filter fun r => decide (r.1 = o.toNat) && decide (0 < r.2) with
  | nil => simp [hl] at htwo
  | cons r rest =>
    cases rest with
    | nil => simp [hl] at htwo
    | cons r' rest =>
      rw [hl] at hapart
      have hmem : ∀ x ∈ r :: r' :: rest, x.1 = o.toNat ∧ 0 < x.2 := by
        intro x hx
        rw [← hl] at hx
        simpa using (List.mem_filter.mp hx).2
      obtain ⟨h1, h2⟩ := hmem r (by simp)
      obtain ⟨h1', h2'⟩ := hmem r' (by simp)
      exact (List.pairwise_cons.mp hapart).1 r' (by simp) o.toNat ⟨by omega, by omega⟩
        ⟨by omega, by omega⟩

/-- A call that reads bytes starts next to another: from then on they clash. -/
theorem Serial.clash (S : Serial d start s) (hno : ¬Alone d s e)
    (hs : Offset.step d s e = some t) :
    ∃ o, Clash d o t := by
  cases e with
  | piece p => exact absurd trivial hno
  | update p => exact absurd trivial hno
  | fetch p len =>
    simp only [Alone, Classical.not_forall, not_not] at hno
    obtain ⟨hlen, hoff, o, q, hq⟩ := hno
    obtain rfl := S.here hq
    cases step_does hs with
    | refused _ hbeyond =>
      rw [BitVec.lt_def] at hoff hbeyond
      omega
    | fetched hout hle =>
      have hne : p ≠ q := by
        rintro rfl
        obtain ⟨_, _, hin, -⟩ := hq
        rw [hout] at hin
        cases hin
      have hdoes : Does d s (.fetch p len) (s.setReader p (.inside s.offset len 0)) :=
        .fetched hout hle
      have hq' := hq.step hdoes
      rcases hq' with hq' | ⟨he, -⟩
      · exact ⟨s.offset, .inl ⟨p, q, hne, ⟨len, 0, Function.update_self _ _ _, hlen, hoff⟩, hq'⟩⟩
      · cases he

/-! ## The result -/

theorem Serial.run {es : List Event} (S : Serial d start s) (hr : runs (Offset.step d) s es = some t)
    (hout : ∀ p, t.reader p = .out) : Exact start t ↔ RunOk (Offset.step d) (Alone d) s es := by
  constructor
  · intro hex
    induction es generalizing s with
    | nil => trivial
    | cons e es ih =>
      obtain ⟨u, hu, hr⟩ := runs_cons.mp hr
      by_cases hok : Alone d s e
      · refine ⟨hok, fun v hv => ?_⟩
        cases hu.symm.trans hv
        exact ih (S.step hok hu) hr
      · obtain ⟨o, hclash⟩ := S.clash hok hu
        have hend : Clash d o t :=
          @runs_inv _ _ _ (fun _ _ => True) (Clash d o) (fun _ _ _ h _ hs => h.step (step_does hs))
            _ _ _ hclash (.of_forall (fun _ _ => trivial) _ _) hr
        exact absurd hex (hend.overlap hout)
  · intro hok
    exact (runs_inv (Serial d start) (fun _ _ _ S hok hs => S.step hok hs) S hok hr).exact

/-- Calls of `read` on one descriptor deliver the file in order and once, exactly if no call that
reads bytes starts while another one does. -/
theorem shared_offset (d : Device) (start : Word) (es : List Event) (s : State)
    (hr : runs (step d) (.init start) es = some s) (hout : ∀ p, s.reader p = .out) :
    Exact start.toNat s ↔ RunOk (step d) (Alone d) (.init start) es :=
  (Serial.init start).run hr hout

/-- One process reads four bytes, and then its child 600, which are in two blocks. -/
def inTurn : List Event :=
  [.fetch 0 4, .piece 0, .update 0, .fetch 1 600, .piece 1, .piece 1, .update 1]

theorem Alone.of_idle (h : ∀ p, s.reader p = .out) (e : Event) : Alone d s e := by
  cases e with
  | fetch p len =>
    rintro - - o q ⟨_, _, hin, -⟩
    rw [h q] at hin
    cases hin
  | piece p => trivial
  | update p => trivial

/-- Reading in turn, they get the file in order. -/
theorem shared_offset_in_turn :
    ∃ s, runs (step Block.sectors) (.init 0) inTurn = some s ∧
      s.ranges = [(4, 600), (0, 4)] ∧ s.offset = 604 ∧ Exact 0 s := by
  refine ⟨_, rfl, by decide +kernel, by decide +kernel,
    (shared_offset Block.sectors 0 inTurn _ rfl fun p => ?_).mpr ?_⟩
  · by_cases h₁ : p = 1
    · subst h₁
      rfl
    · simp [State.setReader, h₁, State.init]
  · refine ⟨.of_idle (fun _ => rfl) _, fun _ h₁ => ⟨trivial, fun _ h₂ => ⟨trivial, fun u h₃ =>
      ⟨.of_idle (fun p => ?_) _, fun _ _ => ⟨trivial, fun _ _ => ⟨trivial, fun _ _ => ⟨trivial,
        fun _ _ => trivial⟩⟩⟩⟩⟩⟩⟩
    cases h₁
    cases h₂
    cases h₃
    simp [State.setReader, State.init]

/-- Both fetch the offset 0, both get the first four bytes, and the next four are skipped. -/
theorem bytes_read_twice :
    ∃ s, runs (step Block.sectors) (.init 0)
      [.fetch 0 4, .fetch 1 4, .piece 0, .piece 1, .update 0, .update 1] = some s ∧
      s.ranges = [(0, 4), (0, 4)] ∧ s.offset = 8 ∧ ¬Exact 0 s := by
  obtain ⟨s, hr, hranges, hoff⟩ : ∃ s, runs (step Block.sectors) (.init 0)
      [.fetch 0 4, .fetch 1 4, .piece 0, .piece 1, .update 0, .update 1] = some s ∧
      s.ranges = [(0, 4), (0, 4)] ∧ s.offset = 8 :=
    ⟨_, rfl, by decide +kernel, by decide +kernel⟩
  refine ⟨s, hr, hranges, hoff, fun h => ?_⟩
  have hapart := h.apart
  rw [hranges] at hapart
  exact (List.pairwise_cons.mp hapart).1 (0, 4) (by simp) 0 ⟨by decide, by decide⟩
    ⟨by decide, by decide⟩

end OsKernel.Sys.Offset
