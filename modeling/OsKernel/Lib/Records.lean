import Mathlib.Tactic.ByContra
import OsKernel.Lib.Prog

/-!
# Records behind each other in a block

A loop over records of different lengths counts the bytes that are left of the block, in a
word that wraps around. Nothing but the records themselves makes it end where the block does:
`Records.Sound` says what they have to be like for the loop to end and to look at nothing
behind the block.

`Sound` is inductive, and so finite: a record of length 0 has no derivation, and neither has
one that leads over the end. `Passed` and `Tiles` are the case in which no record ends the
search. What is done with a record is a parameter, with what it looks at as a predicate, and
the equivalence is proved for all of them at once: `Sound.wp_loop` and `sound_of_loop`.
-/

set_option autoImplicit false

namespace OsKernel.Lib

open Prog

namespace Records

variable {ε σ α : Type}

/-- `while (togo > 0)`: the record at `e` is examined, and the next one is `len` bytes on. -/
def loop (out : ε) (examine : Nat → Prog ε σ (Option α)) (len : Nat → Prog ε σ (BitVec 32)) :
    Nat → BitVec 32 → Nat → Prog ε σ (Option α)
  | 0, _, _ => throw out
  | fuel + 1, togo, e =>
    if 0 < togo then do
      match ← examine e with
      | some a => pure (some a)
      | none => do
        let n ← len e
        loop out examine len fuel (togo - n) (e + n.toNat)
    else pure none

/-- The records at the given places, one after the other. -/
def search (examine : Nat → Prog ε σ (Option α)) : List Nat → Prog ε σ (Option α)
  | [] => pure none
  | e :: es => do
    match ← examine e with
    | some a => pure (some a)
    | none => search examine es

/-- A block: which records lie in it as far as they are looked at, which ones end the search, and how
long they are. -/
structure Block where
  size : Nat
  inside : Nat → Prop
  stops : Nat → Prop
  len : Nat → Nat
  inside_lt : ∀ e, inside e → e < size

/-- From `e` on the records are inside, up to one that ends the search or to the end of the block. -/
inductive Sound (B : Block) : Nat → Prop
  | done : Sound B B.size
  | stop {e : Nat} : B.inside e → B.stops e → Sound B e
  | next {e : Nat} : B.inside e → ¬B.stops e → 0 < B.len e → Sound B (e + B.len e) → Sound B e

/-- From `e` on the records fill the block, and none of them ends the search. -/
inductive Passed (B : Block) : Nat → Prop
  | done : Passed B B.size
  | next {e : Nat} : B.inside e → ¬B.stops e → 0 < B.len e → Passed B (e + B.len e) → Passed B e

/-- The records from `e` on are at the given places, and fill the block. -/
inductive Tiles (B : Block) : Nat → List Nat → Prop
  | done : Tiles B B.size []
  | next {e : Nat} {es : List Nat} :
    B.inside e → 0 < B.len e → Tiles B (e + B.len e) es → Tiles B e (e :: es)

variable {B : Block} {e : Nat} {es : List Nat}

theorem Passed.sound (h : Passed B e) : Sound B e := by
  induction h with
  | done => exact .done
  | next hin hno hpos _ ih => exact .next hin hno hpos ih

/-- A record of length 0 that does not end the search. -/
theorem not_sound (hlt : e < B.size) (hno : ¬B.stops e) (hlen : B.len e = 0) : ¬Sound B e := by
  intro h
  cases h with
  | done => exact Nat.lt_irrefl _ hlt
  | stop _ hs => exact hno hs
  | next _ _ hpos => exact absurd hlen (Nat.ne_of_gt hpos)

theorem Sound.le (h : Sound B e) : e ≤ B.size := by
  cases h with
  | done => exact Nat.le_refl _
  | stop hin => exact Nat.le_of_lt (B.inside_lt e hin)
  | next hin => exact Nat.le_of_lt (B.inside_lt e hin)

theorem Tiles.le (h : Tiles B e es) : e ≤ B.size := by
  cases h with
  | done => exact Nat.le_refl _
  | next hin => exact Nat.le_of_lt (B.inside_lt e hin)

/-- There are not more records than bytes. -/
theorem Tiles.length_le (h : Tiles B e es) : es.length ≤ B.size - e := by
  induction h with
  | done => exact Nat.zero_le _
  | @next e es hin hpos h ih =>
    have hle := h.le
    rw [List.length_cons]
    omega

theorem Tiles.inside (h : Tiles B e es) : ∀ x ∈ es, B.inside x := by
  induction h with
  | done => exact fun x hx => absurd hx List.not_mem_nil
  | @next e es hin hpos h ih =>
    intro x hx
    rcases List.mem_cons.mp hx with rfl | hx
    · exact hin
    · exact ih x hx

theorem Tiles.unique {es' : List Nat} (h : Tiles B e es) (h' : Tiles B e es') : es = es' := by
  induction h generalizing es' with
  | done =>
    cases h' with
    | done => rfl
    | next hin => exact absurd (B.inside_lt _ hin) (Nat.lt_irrefl _)
  | @next e es hin hpos h ih =>
    cases h' with
    | done => exact absurd (B.inside_lt _ hin) (Nat.lt_irrefl _)
    | next _ _ h'' => rw [ih h'']

/-! ## The loop

The loop goes from record to record by what is left of the block, an unsigned number from which
the length of each record is subtracted. It ends well exactly if the records fill the block or the
search stops before; both directions are here, for any search that reads a record in the way that
`Reads` describes. -/

section Loop

/-- Bytes are left before the end of the block. -/
theorem left_pos {z : Nat} (he : e < z) (hz : z < 2 ^ 32) : 0 < BitVec.ofNat 32 (z - e) := by
  have h0 : (0 : BitVec 32).toNat = 0 := rfl
  rw [BitVec.lt_def, BitVec.toNat_ofNat, h0]
  omega

/-- The bytes left of the next record on. -/
theorem left_sub {z : Nat} {n : BitVec 32} (hz : z < 2 ^ 32) (hn : e + n.toNat ≤ z) :
    BitVec.ofNat 32 (z - e) - n = BitVec.ofNat 32 (z - (e + n.toNat)) := by
  rw [← BitVec.toNat_inj, BitVec.toNat_sub, BitVec.toNat_ofNat, BitVec.toNat_ofNat]
  omega

variable {out : ε} {examine : Nat → Prog ε σ (Option α)} {len : Nat → Prog ε σ (BitVec 32)}
variable {fuel : Nat} {s : σ}

/-- The loop over a block that the records fill. -/
theorem loop_eq_search (h : Tiles B e es) (hsize : B.size < 2 ^ 32) (hfuel : es.length < fuel)
    (hlen : ∀ x ∈ es, len x = pure (BitVec.ofNat 32 (B.len x))) :
    loop out examine len fuel (BitVec.ofNat 32 (B.size - e)) e = search examine es := by
  induction h generalizing fuel with
  | done =>
    obtain ⟨fuel, rfl⟩ := Nat.exists_eq_succ_of_ne_zero (Nat.ne_of_gt hfuel)
    unfold loop search
    rw [Nat.sub_self]
    exact if_neg (by decide)
  | @next e es hin hpos h ih =>
    obtain ⟨fuel, rfl⟩ := Nat.exists_eq_succ_of_ne_zero (Nat.ne_of_gt (Nat.zero_lt_of_lt hfuel))
    have hlt := B.inside_lt e hin
    have hle := h.le
    have hn : (BitVec.ofNat 32 (B.len e)).toNat = B.len e := by
      rw [BitVec.toNat_ofNat]
      omega
    have hnext := @left_sub e B.size (BitVec.ofNat 32 (B.len e)) hsize (by omega)
    have hrest := ih (Nat.lt_of_succ_lt_succ hfuel) fun x hx => hlen x (List.mem_cons_of_mem _ hx)
    unfold loop search
    rw [if_pos (left_pos hlt hsize)]
    congr 1
    funext r
    cases r with
    | some a => rfl
    | none =>
      rw [hlen e List.mem_cons_self]
      simp only [pure_bind]
      rw [hnext, hn]
      exact hrest

/-- What one turn of the loop does, where looking behind the block is `bad`. -/
structure Reads (B : Block) (bad : ε → Prop) (examine : Nat → Prog ε σ (Option α))
    (len : Nat → Prog ε σ (BitVec 32)) : Prop where
  inside : ∀ e s, B.inside e →
    wp (examine e) (fun r _ => r ≠ none ↔ B.stops e) (fun l _ => B.stops e ∧ ¬bad l) s
  outside : ∀ e s, ¬B.inside e → wp (examine e)
    (fun r s' => r = none ∧ wp (len e) (fun _ _ => False) (fun l _ => bad l) s') (fun l _ => bad l) s
  len : ∀ e s, B.inside e → wp (len e) (fun n _ => n.toNat = B.len e) (fun _ _ => False) s

variable {bad : ε → Prop}

/-- The loop over a sound block ends well, with nothing exactly if nothing ends the search, unless it
is cut off before. -/
theorem Sound.wp_loop (h : Sound B e) (R : Reads B bad examine len) (hsize : B.size < 2 ^ 32)
    (hout : bad out) :
    wp (loop out examine len fuel (BitVec.ofNat 32 (B.size - e)) e)
      (fun r _ => r = none ↔ Passed B e)
      (fun l _ => (bad l ∧ fuel ≤ B.size - e) ∨ (¬bad l ∧ ¬Passed B e)) s := by
  have hstopped : ∀ e, B.inside e → B.stops e → ¬Passed B e := by
    intro e hin hs hp
    cases hp with
    | done => exact absurd (B.inside_lt _ hin) (Nat.lt_irrefl _)
    | next _ hno => exact hno hs
  -- on the soundness of the block, which follows its records
  induction h generalizing fuel s with
  | done =>
    cases fuel with
    | zero => exact .inl ⟨hout, Nat.zero_le _⟩
    | succ fuel =>
      unfold loop
      rw [Nat.sub_self, wp_ite, if_neg (by decide)]
      exact ⟨fun _ => .done, fun _ => rfl⟩
  | @stop e hin hs =>
    cases fuel with
    | zero => exact .inl ⟨hout, Nat.zero_le _⟩
    | succ fuel =>
      unfold loop
      rw [wp_ite, if_pos (left_pos (B.inside_lt e hin) hsize), wp_bind]
      refine wp_mono (R.inside e s hin) (fun r s' h => ?_) fun l _ h =>
        .inr ⟨h.2, hstopped e hin hs⟩
      cases r with
      | none => exact absurd rfl (h.mpr hs)
      | some a => exact ⟨fun h => (by cases h), fun hp => absurd hp (hstopped e hin hs)⟩
  | @next e hin hno hpos h ih =>
    have hlt := B.inside_lt e hin
    have hle := h.le
    have hpassed : Passed B (e + B.len e) ↔ Passed B e := by
      refine ⟨.next hin hno hpos, fun hp => ?_⟩
      cases hp with
      | done => exact absurd hlt (Nat.lt_irrefl _)
      | next _ _ _ hp => exact hp
    cases fuel with
    | zero => exact .inl ⟨hout, Nat.zero_le _⟩
    | succ fuel =>
      unfold loop
      rw [wp_ite, if_pos (left_pos hlt hsize), wp_bind]
      refine wp_mono (R.inside e s hin) (fun r s' h => ?_) fun l _ h => absurd h.1 hno
      cases r with
      | some a => exact absurd (h.mp nofun) hno
      | none =>
        simp only
        rw [wp_bind]
        refine wp_mono (R.len e s' hin) (fun n s'' hn => ?_) fun _ _ h => h.elim
        rw [left_sub hsize (by omega), hn]
        refine wp_mono ih (fun r _ h => h.trans hpassed) fun l _ h => ?_
        rcases h with ⟨hbad, hfuel⟩ | ⟨hok, hnot⟩
        · exact .inl ⟨hbad, by omega⟩
        · exact .inr ⟨hok, fun hp => hnot (hpassed.mpr hp)⟩

/-- A turn that looks behind the block does not end well. -/
theorem Reads.outside_bad (R : Reads B bad examine len) (hno : ¬B.inside e)
    {rest : BitVec 32 → Prog ε σ (Option α)} :
    ¬wp (do
      match ← examine e with
      | some a => pure (some a)
      | none => do
        let n ← len e
        rest n) (fun _ _ => True) (fun l _ => ¬bad l) s := by
  intro hw
  rw [wp_bind] at hw
  obtain ⟨r, s', -, hrest, rfl, hlen⟩ := wp_returns (wp_mono (wp_and hw (R.outside e s hno))
    (fun _ _ h => h) fun _ _ h => h.1 h.2)
  simp only at hrest
  rw [wp_bind] at hrest
  obtain ⟨_, _, -, h⟩ := wp_returns (wp_mono (wp_and hrest hlen) (fun _ _ h => h.2)
    fun _ _ h => h.1 h.2)
  exact h

/-- A loop that ends well has gone over a sound block. -/
theorem sound_of_loop (R : Reads B bad examine len) (hsize : B.size < 2 ^ 32) (hout : bad out) :
    ∀ {fuel e : Nat} {s : σ}, e ≤ B.size →
      wp (loop out examine len fuel (BitVec.ofNat 32 (B.size - e)) e) (fun _ _ => True)
        (fun l _ => ¬bad l) s → Sound B e := by
  intro fuel
  induction fuel with
  | zero => exact fun _ h => absurd hout h
  | succ fuel ih =>
    intro e s he hw
    rcases Nat.lt_or_eq_of_le he with hlt | rfl
    case inr => exact .done
    unfold loop at hw
    rw [wp_ite, if_pos (left_pos hlt hsize)] at hw
    by_cases hin : B.inside e
    case neg => exact absurd hw (R.outside_bad hin)
    rw [wp_bind] at hw
    by_cases hs : B.stops e
    case pos => exact .stop hin hs
    obtain ⟨r, s', -, hr, hrest⟩ := wp_returns (wp_mono (wp_and (R.inside e s hin) hw)
      (fun _ _ h => h) fun _ _ h => absurd h.1.1 hs)
    have hnone : r = none := by
      by_contra hne
      exact hs (hr.mp hne)
    subst hnone
    simp only at hrest
    rw [wp_bind] at hrest
    obtain ⟨n, s'', -, hn, hrest⟩ := wp_returns (wp_mono (wp_and (R.len e s' hin) hrest)
      (fun _ _ h => h) fun _ _ h => h.1)
    have hn32 := n.isLt
    by_cases hfits : e + n.toNat ≤ B.size
    · rw [left_sub hsize hfits] at hrest
      have hsound := ih hfits hrest
      rw [hn] at hsound
      by_cases hpos : 0 < B.len e
      · exact .next hin hs hpos hsound
      · rwa [Nat.eq_zero_of_not_pos hpos, Nat.add_zero] at hsound
    · -- the count of what is left has wrapped around, and the next record is behind the block
      exfalso
      cases fuel with
      | zero => exact hrest hout
      | succ fuel =>
        have hwrapped : 0 < BitVec.ofNat 32 (B.size - e) - n := by
          have h0 : (0 : BitVec 32).toNat = 0 := rfl
          rw [BitVec.lt_def, BitVec.toNat_sub, BitVec.toNat_ofNat, h0]
          omega
        unfold loop at hrest
        rw [wp_ite, if_pos hwrapped] at hrest
        exact R.outside_bad (fun h => hfits (Nat.le_of_lt (B.inside_lt _ h))) hrest

end Loop

end Records

end OsKernel.Lib
