import Mathlib.Data.Fintype.Basic
import OsKernel.Ide.Cached

/-!
# Reads that overlap

Whatever processes do, a `read` that returns has delivered the bytes of its file, unless one
of them came in the way of another: no lock keeps them apart. Reads one after the other cannot
do that.

There are three results, with one invariant. Without a condition on the run: as long as there
is no clash, each call that has returned has delivered its bytes (`read_among_others`). With a
condition on each step and the state before it: if no step comes in another's way, the same
(`reads_kept_apart`). With processes that enter the kernel one at a time: the same, and
without any condition on steps (`read_one_at_a_time`). The second names the steps at which the
code would need a lock.

That it needs one is shown by a run (`overlapping_reads_mixed_up`). Two processes read two
files; the second gives its command while the first waits for the drive, and the first takes
the words of the second's sector for its own. Each kind of run that the results allow is shown
by a run, too, in which reads do overlap.

Calls begin with the check of `sys.cc` passed and end with what the descriptor's `read`
returns. Whether the process holds the descriptor, and what becomes of the offset, is in
`Sys`.
-/

set_option autoImplicit false

namespace OsKernel.Ide

open Lib Block

variable {P V : Type} [DecidableEq P] [DecidableEq V] {content : Nat → Byte} {files : V → File}
variable {ch : Byte} {al : Prop} {s s' : State P V} {p : P} {c : Call V}

/-- What is left of a call. -/
abbrev Unfinished (content : Nat → Byte) (files : V → File) (p : P) (al : Prop) (c : Call V)
    (x : Thread V Result) (w : World P V) : Prop :=
  Task.Waits (handle content p) (terms content files p al)
    (fun r w => Delivers content files c r ∧ Free content files p al w) DriveFails x w

/-- Where no two processes have met; `al` says that only one at a time is in the kernel. -/
structure Inv (content : Nat → Byte) (files : V → File) (al : Prop) (s : State P V) : Prop where
  calm : al → s.world.clash = false
  waits : ∀ {p c x}, s.at' p = some (c, x) → Unfinished content files p al c x s.world
  single : al → ∀ {p q}, (s.at' p).isSome → q ≠ p → s.at' q = none
  idle : ∀ {p}, s.at' p = none → (al → ∀ q, s.at' q = none) → Free content files p al s.world
  returned : ∀ x ∈ s.returned, Delivers content files x.1 x.2

/-! ## A step

A step is a call that begins, or one answer to one process. All others are where they were, and
their assertions are kept by what the answer is allowed to do to the world. Once there has been a
clash nothing is said any more, and a clash is not forgotten. -/

/-- A clash is not forgotten. -/
theorem handle_clash {status : Byte} {w : World P V} {q : Request V} {r : Answer q × World P V}
    (h : handle content p status q w = some r) (hc : w.clash = true) : r.2.clash = true := by
  cases q with
  | poll mask set =>
    simp only [handle] at h
    split at h
    · cases h
      exact hc
    · cases h
  | look v number =>
    simp only [handle] at h
    split at h <;> (cases h; simp [World.hit, World.miss, hc])
  | out reg x =>
    cases h
    simp [World.out, hc]
  | status | inl | make | put | take =>
    cases h
    exact hc

theorem task_clash {status : Byte} {w : World P V} {x : Thread V Result}
    {r : Thread V Result × World P V} (h : x.step (handle content p) status w = some r)
    (hc : w.clash = true) : r.2.clash = true := by
  cases x with
  | ret a => cases h
  | stop e => cases h
  | ask q k =>
    obtain ⟨r', hr, rfl⟩ := Option.map_eq_some_iff.mp h
    exact handle_clash hr hc

omit [DecidableEq V] in
@[simp] theorem leave_world (s : State P V) (p : P) (c : Call V) (x : Thread V Result) :
    (s.leave p c x).world = s.world := by
  cases x <;> rfl

/-- A step is a new call, or a step of one that is going on. -/
theorem step_cases {a : Act P V} (h : step content ch files s a = some s') :
    (∃ p c, a = .call p c ∧ s.at' p = none ∧ s' = s.leave p c (c.task ch files)) ∨
    ∃ p status c x r, a = .go p status ∧ s.at' p = some (c, x) ∧
      x.step (handle content p) status s.world = some r ∧
      s' = { s with world := r.2 }.leave p c r.1 := by
  cases a with
  | call p c =>
    simp only [step] at h
    split at h
    · rename_i hnone
      exact Or.inl ⟨p, c, rfl, hnone, (Option.some.inj h).symm⟩
    · cases h
  | go p status =>
    simp only [step] at h
    split at h
    · cases h
    · rename_i c x hat
      obtain ⟨r, hr, rfl⟩ := Option.map_eq_some_iff.mp h
      exact Or.inr ⟨p, status, c, x, r, rfl, hat, hr, rfl⟩

theorem step_clash {a : Act P V} (h : step content ch files s a = some s')
    (hc : s.world.clash = true) : s'.world.clash = true := by
  obtain ⟨p, c, -, -, rfl⟩ | ⟨p, status, c, x, r, -, -, hr, rfl⟩ := step_cases h
  · rw [leave_world]
    exact hc
  · rw [leave_world]
    exact task_clash hr hc

/-- A process has run on, and the others are still where they were. -/
theorem inv_leave {x : Thread V Result} (hcalm : al → s.world.clash = false)
    (hx : Reads content files p al
      (fun r w => Delivers content files c r ∧ Free content files p al w) x s.world)
    (hwaits : ∀ q ≠ p, ∀ {c x}, s.at' q = some (c, x) → Unfinished content files q al c x s.world)
    (hsingle : al → ∀ q ≠ p, s.at' q = none)
    (hidle : ¬al → ∀ q ≠ p, s.at' q = none → Free content files q al s.world)
    (hreturned : ∀ x ∈ s.returned, Delivers content files x.1 x.2) :
    Inv content files al (s.leave p c x) := by
  rcases hx.waits with ⟨r, rfl, hr, hfree⟩ | hx
  · -- the call has returned
    have hat : ∀ q ≠ p, (s.leave p c (.ret r)).at' q = s.at' q :=
      fun q hq => Function.update_of_ne hq ..
    have hself : (s.leave p c (.ret r)).at' p = none := Function.update_self ..
    refine ⟨hcalm, ?_, ?_, ?_, ?_⟩
    · intro q c' x' hq
      by_cases hqp : q = p
      · subst hqp
        rw [hself] at hq
        cases hq
      · rw [hat q hqp] at hq
        exact hwaits q hqp hq
    · intro hal q q' _ _
      by_cases hqp : q' = p
      · rw [hqp, hself]
      · rw [hat q' hqp]
        exact hsingle hal q' hqp
    · intro q hq _
      by_cases hal : al
      · exact Free.alone hal hfree q
      · by_cases hqp : q = p
        · subst hqp
          exact hfree
        · rw [hat q hqp] at hq
          exact hidle hal q hqp hq
    · intro y hy
      rcases List.mem_cons.mp hy with rfl | hy
      · exact hr
      · exact hreturned y hy
  · -- it goes on
    have hleave : s.leave p c x = { s with at' := Function.update s.at' p (some (c, x)) } := by
      cases x with
      | ret a => exact hx.elim
      | stop e => rfl
      | ask q k => rfl
    rw [hleave]
    have hat : ∀ q ≠ p, Function.update s.at' p (some (c, x)) q = s.at' q :=
      fun q hq => Function.update_of_ne hq ..
    have hself : Function.update s.at' p (some (c, x)) p = some (c, x) := Function.update_self ..
    refine ⟨hcalm, ?_, ?_, ?_, hreturned⟩
    · intro q c' x' hq
      by_cases hqp : q = p
      · subst hqp
        have hsame := hself.symm.trans hq
        cases hsame
        exact hx
      · exact hwaits q hqp ((hat q hqp).symm.trans hq)
    · intro hal q q' hsome hne
      by_cases hqp : q = p
      · subst hqp
        exact (hat q' hne).trans (hsingle hal q' hne)
      · have hsome' : (Function.update s.at' p (some (c, x)) q).isSome := hsome
        rw [hat q hqp, hsingle hal q hqp] at hsome'
        cases hsome'
    · intro q hq hall
      by_cases hal : al
      · have hnone := hself.symm.trans (hall hal p)
        cases hnone
      · by_cases hqp : q = p
        · subst hqp
          have hnone := hself.symm.trans hq
          cases hnone
        · exact hidle hal q hqp ((hat q hqp).symm.trans hq)

/-- One at a time: a process calls only while no other is in the kernel. -/
def OneAtATime (s : State P V) : Act P V → Prop
  | .call _ _ => ∀ q, s.at' q = none
  | .go _ _ => True

instance OneAtATime.decidable [Fintype P] : ∀ (s : State P V) (a : Act P V),
    Decidable (OneAtATime s a)
  | s, .call _ _ => inferInstanceAs (Decidable (∀ q, s.at' q = none))
  | _, .go _ _ => isTrue trivial

theorem inv_step {a : Act P V} (hdisk : ∀ v, OnDisk content (files v)) (h : Inv content files al s)
    (hok : al → OneAtATime s a) (hstep : step content ch files s a = some s')
    (hb : al ∨ s'.world.clash = false) : Inv content files al s' := by
  obtain ⟨p, c, rfl, hnone, rfl⟩ | ⟨p, status, c, x, r, rfl, hat, hr, rfl⟩ := step_cases hstep
  · apply inv_leave h.calm (reads_call ch (hdisk c.node) (h.idle hnone hok))
    · exact fun q _ _ _ hq => h.waits hq
    · exact fun hal q _ => hok hal q
    · exact fun hal q _ hq => h.idle hq fun hal' => absurd hal' hal
    · exact h.returned
  · rw [leave_world] at hb
    have hgood : ¬(terms content files p al).bad r.2 := by
      intro hbad
      rcases hb with hal | hc
      · exact hbad.1 hal
      · have hclash : r.2.clash = true := hbad.2
        rw [hclash] at hc
        cases hc
    obtain ⟨hguar, hrun⟩ := (h.waits hat).step hr hgood
    have hone : al → ∀ q ≠ p, s.at' q = none := by
      intro hal q hq
      exact h.single hal (by rw [hat]; rfl) hq
    apply inv_leave (fun hal => hguar.2 hal (h.calm hal)) hrun
    · intro q hq c' x' hq'
      refine (h.waits hq').stable ⟨hguar.1 q hq, fun hal => ?_⟩
      have hnone := hone hal q hq
      rw [hnone] at hq'
      cases hq'
    · exact hone
    · intro hal q hq hnone
      have hfree := h.idle hnone fun hal' => absurd hal' hal
      exact hfree.stable ⟨hguar.1 q hq, fun hal' => absurd hal' hal⟩
    · exact h.returned

/-! ## Runs -/

theorem inv_init (d : Drive) (cache : V → Bytes) :
    Inv content files al (State.init d cache : State P V) where
  calm _ := rfl
  waits h := by cases h
  single _ _ _ _ _ := rfl
  idle _ _ := by
    refine ⟨⟨?_, ?_, ?_, ?_, ?_⟩, ?_, ?_⟩
    · intro v _
      refine ⟨fun hno => ?_, fun _ => rfl⟩
      cases hno
    · intro v
      exact ⟨fun hno => (by cases hno), fun hno => (by cases hno)⟩
    · exact fun v => Finset.notMem_empty _
    · exact fun _ _ => rfl
    · exact fun _ _ => ⟨fun _ => rfl, rfl⟩
    · exact fun hno => by cases hno
    · exact fun _ => rfl
  returned := by
    intro x hx
    cases hx

theorem inv_runs (hdisk : ∀ v, OnDisk content (files v)) {d : Drive} {cache : V → Bytes}
    {acts : List (Act P V)} (hok : RunOk (step content ch files) (fun s a => al → OneAtATime s a)
      (State.init d cache) acts)
    (hrun : runs (step content ch files) (State.init d cache) acts = some s)
    (hb : al ∨ s.world.clash = false) : Inv content files al s := by
  refine runs_inv (fun s => al ∨ s.world.clash = false → Inv content files al s) ?_
    (fun _ => inv_init d cache) hok hrun hb
  intro s a t hs hok hstep hb
  refine inv_step hdisk (hs ?_) hok hstep hb
  refine hb.imp_right fun hc => ?_
  by_contra hclash
  rw [step_clash hstep (Bool.eq_true_of_not_eq_false hclash)] at hc
  cases hc

/-- Where a call is that has not returned: it goes on, or the drive has failed. -/
theorem Inv.stopped (h : Inv content files al s) {e : Stop} (hat : s.at' p = some (c, .stop e)) :
    DriveFails e := h.waits hat

/-- Reads that overlap deliver the bytes of their files, where none came in the way of another. -/
theorem read_among_others (ch : Byte) (hdisk : ∀ v, OnDisk content (files v)) (d : Drive)
    (cache : V → Bytes) (acts : List (Act P V)) (s : State P V)
    (hrun : runs (step content ch files) (State.init d cache) acts = some s)
    (hclash : s.world.clash = false) :
    (∀ x ∈ s.returned, Delivers content files x.1 x.2) ∧
      ∀ p c e, s.at' p = some (c, .stop e) → DriveFails e := by
  have hinv : Inv content files False s := inv_runs hdisk
    (RunOk.of_forall (fun _ _ hno => hno.elim) _ _) hrun (Or.inr hclash)
  exact ⟨hinv.returned, fun p c e hat => hinv.stopped hat⟩

/-! Two files of one block each, and reads of them from the middle on. -/

/-- The second and the third block of the disk. -/
def sampleFile (v : Fin 2) : File :=
  ⟨10, by decide, 1024, rfl, fun _ => BitVec.ofNat 32 (v + 1), 1024⟩

def sampleBytes (i : Nat) : Byte := BitVec.ofNat 8 (i / 1024)

def sampleCall (v : Fin 2) (len : Word) : Call (Fin 2) := ⟨v, 300, len, 0x80000000, fun _ => 0⟩

def sampleStart : State (Fin 2) (Fin 2) := State.init ⟨0, 0, 0, 0, 0, none⟩ fun _ _ => 0

/-- A process goes on, `n` times, and the drive is ready. -/
def ready (p : Fin 2) (n : Nat) : List (Act (Fin 2) (Fin 2)) := List.replicate n (.go p 0x48)

/-- The first `read` brings the block into the cache, in two sectors. -/
def sampleCold : List (Act (Fin 2) (Fin 2)) := .call 0 (sampleCall 0 1000) :: ready 0 283

/-- A file that ends within its first block. -/
theorem onDisk_one {f : File} (horder : 10 ≤ f.order) (hsize : f.size.toNat ≤ f.blockSize.toNat)
    (hpos : 0 < (f.data 0).toNat)
    (hlast : ((f.data 0).toNat + 1) * f.blockSize.toNat ≤ 2 ^ 32 - 1) : OnDisk content f := by
  have hfirst : ∀ n, n * f.blockSize.toNat < f.size.toNat → n = 0 := by
    intro n hn
    by_contra h0
    have hmany : 1 * f.blockSize.toNat ≤ n * f.blockSize.toNat :=
      Nat.mul_le_mul_right _ (Nat.pos_of_ne_zero h0)
    omega
  have hpath : Ext2.path (f.blockSize.toNat / 4) 0 = (0, []) := rfl
  refine ⟨horder, fun n hn => ?_, fun n hn hlarge => ?_, fun n hn => ?_⟩
  · rw [hfirst n hn]
    refine ⟨2 ^ 32 - 1, by decide, ?_⟩
    rw [hpath]
    exact ⟨hpos, hlast⟩
  · rw [hfirst n hn] at hlarge
    omega
  · rw [hfirst n hn, hpath]
    exact fun d hd => absurd hd List.not_mem_nil

theorem onDisk_sample : ∀ v, OnDisk sampleBytes (sampleFile v) :=
  Fin.forall_fin_two.mpr ⟨onDisk_one (by decide) (by decide) (by decide) (by decide),
    onDisk_one (by decide) (by decide) (by decide) (by decide)⟩

/-- Two processes copy out of the cache at a time. -/
theorem read_among_others_sample : ∃ s : State (Fin 2) (Fin 2),
    runs (step sampleBytes 0 sampleFile) sampleStart (sampleCold ++
      [.call 0 (sampleCall 0 2), .call 1 (sampleCall 0 1), .go 0 0x48, .go 1 0x48, .go 1 0x48,
        .go 0 0x48]) = some s ∧ s.returned.length = 3 ∧
    ∀ x ∈ s.returned, Delivers sampleBytes sampleFile x.1 x.2 := by
  have hrun : (runs (step sampleBytes 0 sampleFile) sampleStart (sampleCold ++
      [.call 0 (sampleCall 0 2), .call 1 (sampleCall 0 1), .go 0 0x48, .go 1 0x48, .go 1 0x48,
        .go 0 0x48])).map (fun s => (s.returned.length, s.world.clash)) =
      some (3, false) := by decide +kernel
  obtain ⟨s, hs, hpair⟩ := Option.map_eq_some_iff.mp hrun
  obtain ⟨hlen, hclash⟩ := Prod.mk.inj hpair
  exact ⟨s, hs, hlen, (read_among_others 0 onDisk_sample _ _ _ s hs hclash).1⟩

/-! ## Reads that keep apart

A condition on a step and the state before it: it names the three ways of coming in another's way
and uses nothing that the reads compute. The run at the end does not meet it: two processes give
the drive a command, one before the other has its words. -/

/-- No step comes in the way of another process: the drive is not written to in the middle of a
transfer, no cache is looked at while it is being filled, and none is filled while it is being copied
out of. -/
def KeptApart (s : State P V) : Act P V → Prop
  | .call _ _ => True
  | .go p _ =>
    match s.at' p with
    | some (_, .ask (.out _ _) _) => s.world.owner = none ∨ s.world.owner = some p
    | some (_, .ask (.look v number) _) =>
      s.world.filler v = none ∧ (number = s.world.num v ∨ s.world.readers v = ∅)
    | _ => True

instance KeptApart.decidable : ∀ (s : State P V) (a : Act P V), Decidable (KeptApart s a)
  | _, .call _ _ => isTrue trivial
  | s, .go p _ =>
    match h : s.at' p with
    | none => isTrue (by simp only [KeptApart, h])
    | some (_, .ret _) => isTrue (by simp only [KeptApart, h])
    | some (_, .stop _) => isTrue (by simp only [KeptApart, h])
    | some (_, .ask q _) =>
      match q with
      | .out _ _ => decidable_of_iff (s.world.owner = none ∨ s.world.owner = some p)
        (by simp only [KeptApart, h])
      | .look v number => decidable_of_iff
        (s.world.filler v = none ∧ (number = s.world.num v ∨ s.world.readers v = ∅))
        (by simp only [KeptApart, h])
      | .status => isTrue (by simp only [KeptApart, h])
      | .poll _ _ => isTrue (by simp only [KeptApart, h])
      | .inl => isTrue (by simp only [KeptApart, h])
      | .make _ _ => isTrue (by simp only [KeptApart, h])
      | .put _ _ _ _ => isTrue (by simp only [KeptApart, h])
      | .take _ => isTrue (by simp only [KeptApart, h])

/-- Such a step is no clash. -/
theorem KeptApart.calm {a : Act P V} (hok : KeptApart s a) (hc : s.world.clash = false)
    (h : step content ch files s a = some s') : s'.world.clash = false := by
  obtain ⟨p, c, -, -, rfl⟩ | ⟨p, status, c, x, r, rfl, hat, hr, rfl⟩ := step_cases h
  · rw [leave_world]
    exact hc
  rw [leave_world]
  unfold KeptApart at hok
  simp only [hat] at hok
  cases x with
  | ret a => cases hr
  | stop e => cases hr
  | ask q k =>
    obtain ⟨r', hr', rfl⟩ := Option.map_eq_some_iff.mp hr
    cases q with
    | out reg x =>
      cases hr'
      rcases hok with hnone | hown
      · simp [World.out, hc, hnone]
      · simp [World.out, hc, hown]
    | look v number =>
      obtain ⟨hfill, hread⟩ := hok
      simp only [handle] at hr'
      split at hr'
      · cases hr'
        simp [World.hit, hc, hfill]
      · rename_i hne
        cases hr'
        simp [World.miss, hc, hfill, hread.resolve_left hne]
    | poll mask set =>
      simp only [handle] at hr'
      split at hr'
      · cases hr'
        exact hc
      · cases hr'
    | status | inl | make | put | take =>
      cases hr'
      exact hc

/-- In every run in which no process comes in the way of another, every `read` delivers the bytes of
its file. -/
theorem reads_kept_apart (ch : Byte) (hdisk : ∀ v, OnDisk content (files v)) (d : Drive)
    (cache : V → Bytes) (acts : List (Act P V)) (s : State P V)
    (hok : RunOk (step content ch files) KeptApart (State.init d cache) acts)
    (hrun : runs (step content ch files) (State.init d cache) acts = some s) :
    (∀ x ∈ s.returned, Delivers content files x.1 x.2) ∧
      ∀ p c e, s.at' p = some (c, .stop e) → DriveFails e := by
  have hcalm : s.world.clash = false :=
    runs_inv (fun s : State P V => s.world.clash = false)
      (fun _ _ _ hc hok h => KeptApart.calm hok hc h) rfl hok hrun
  have hinv : Inv content files False s := inv_runs hdisk
    (RunOk.of_forall (fun _ _ hno => hno.elim) _ _) hrun (Or.inr hcalm)
  exact ⟨hinv.returned, fun p c e hat => hinv.stopped hat⟩

/-- A process reads from a cache while another one waits for the drive, for the other file. -/
theorem reads_kept_apart_overlap : ∃ s : State (Fin 2) (Fin 2),
    runs (step sampleBytes 0 sampleFile) sampleStart (sampleCold ++ .call 1 (sampleCall 1 5) ::
      ready 1 11 ++ .call 0 (sampleCall 0 2) :: ready 0 2 ++ ready 1 272) = some s ∧
    s.returned.length = 3 ∧ ∀ x ∈ s.returned, Delivers sampleBytes sampleFile x.1 x.2 := by
  have hrun : (runs (guarded (step sampleBytes 0 sampleFile) KeptApart) sampleStart (sampleCold ++
      .call 1 (sampleCall 1 5) :: ready 1 11 ++ .call 0 (sampleCall 0 2) :: ready 0 2 ++
        ready 1 272)).map (fun s => s.returned.length) = some 3 := by decide +kernel
  obtain ⟨s, hs, hlen⟩ := Option.map_eq_some_iff.mp hrun
  obtain ⟨hs, hok⟩ := runs_guarded hs
  exact ⟨s, hs, hlen, (reads_kept_apart 0 onDisk_sample _ _ _ s hok hs).1⟩

omit [DecidableEq V] in
/-- The first byte that a `read` delivers, where there is one. -/
theorem Delivers.first {r : Result} (h : Delivers content files c r)
    (hin : 0 < ((files c.node).device content).available c.offset c.len) :
    r.2 c.buffer = fileByte content (files c.node) c.offset.toNat := by
  have hoff : ¬(files c.node).size < c.offset := by
    intro hlt
    have hsize : ((files c.node).device content).size = (files c.node).size := rfl
    have hlt' : (files c.node).size.toNat < c.offset.toNat := hlt
    unfold Device.available at hin
    rw [hsize] at hin
    omega
  unfold Delivers at h
  rw [if_neg hoff] at h
  have hat := overlay_at (m := c.mem) (a := c.buffer)
    (f := fun i => fileByte content (files c.node) (c.offset.toNat + i)) hin
    (Nat.le_of_lt (available_lt c.offset c.len))
  rw [BitVec.add_zero, ← h.2] at hat
  exact hat

/-- Two processes read different files. While the first one waits for the drive the second one gives it
another command, and the first one gets the words of that. -/
theorem overlapping_reads_mixed_up : (∀ v, OnDisk sampleBytes (sampleFile v)) ∧
    ∃ s : State (Fin 2) (Fin 2), runs (step sampleBytes 0 sampleFile) sampleStart
      (.call 0 (sampleCall 0 1) :: ready 0 11 ++ .call 1 (sampleCall 1 1) :: ready 1 11 ++
        ready 0 272) = some s ∧ ∃ x ∈ s.returned, x.2.2 x.1.buffer = 2 ∧
          fileByte sampleBytes (sampleFile x.1.node) x.1.offset.toNat = 1 ∧
          ¬Delivers sampleBytes sampleFile x.1 x.2 := by
  refine ⟨onDisk_sample, ?_⟩
  have hrun : (runs (step sampleBytes 0 sampleFile) sampleStart
      (.call 0 (sampleCall 0 1) :: ready 0 11 ++ .call 1 (sampleCall 1 1) :: ready 1 11 ++
        ready 0 272)).any (fun s => s.returned.any fun x => decide (x.2.2 x.1.buffer = 2 ∧
          fileByte sampleBytes (sampleFile x.1.node) x.1.offset.toNat = 1 ∧
          0 < ((sampleFile x.1.node).device sampleBytes).available x.1.offset x.1.len)) = true := by
    decide +kernel
  obtain ⟨s, hs, hx⟩ := (Option.any_eq_true _ _).mp hrun
  obtain ⟨x, hmem, hx⟩ := List.any_eq_true.mp hx
  obtain ⟨htwo, hone, hin⟩ := of_decide_eq_true hx
  refine ⟨s, hs, x, hmem, htwo, hone, fun h => ?_⟩
  have hsame := htwo.symm.trans ((h.first hin).trans hone)
  exact absurd hsame (by decide)

/-- Reads one after the other do, whatever the caches hold by then. -/
theorem read_one_at_a_time (ch : Byte) (hdisk : ∀ v, OnDisk content (files v)) (d : Drive)
    (cache : V → Bytes) (acts : List (Act P V)) (s : State P V)
    (hok : RunOk (step content ch files) OneAtATime (State.init d cache) acts)
    (hrun : runs (step content ch files) (State.init d cache) acts = some s) :
    s.world.clash = false ∧ (∀ x ∈ s.returned, Delivers content files x.1 x.2) ∧
      ∀ p c e, s.at' p = some (c, .stop e) → DriveFails e := by
  have hinv : Inv content files True s := inv_runs hdisk
    (hok.mono fun _ _ h _ => h) hrun (Or.inl trivial)
  exact ⟨hinv.calm trivial, hinv.returned, fun p c e hat => hinv.stopped hat⟩

/-- The second process reads from the cache what the first one left there. -/
theorem read_one_at_a_time_sample : ∃ s : State (Fin 2) (Fin 2),
    runs (step sampleBytes 0 sampleFile) sampleStart
      (sampleCold ++ .call 1 (sampleCall 0 1) :: ready 1 2) = some s ∧ s.returned.length = 2 ∧
    ∀ x ∈ s.returned, Delivers sampleBytes sampleFile x.1 x.2 := by
  have hrun : (runs (guarded (step sampleBytes 0 sampleFile) OneAtATime) sampleStart
      (sampleCold ++ .call 1 (sampleCall 0 1) :: ready 1 2)).map
        (fun s => s.returned.length) = some 2 := by decide +kernel
  obtain ⟨s, hs, hlen⟩ := Option.map_eq_some_iff.mp hrun
  obtain ⟨hs, hok⟩ := runs_guarded hs
  exact ⟨s, hs, hlen, (read_one_at_a_time 0 onDisk_sample _ _ _ s hok hs).2.1⟩

end OsKernel.Ide
