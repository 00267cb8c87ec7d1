import Mathlib.Algebra.GroupWithZero.Nat
import Mathlib.Logic.Function.Basic

/-!
# A range cut into pieces

A map from integers to pieces of given sizes; a piece stands at the integer it begins at.
`Tiling` says that the pieces fill a range without overlap. The one operation is `splice`:
some consecutive pieces are taken out and others put in their place.

Cutting a piece, joining two and changing one are splices with one or two pieces on either
side, so that a tiling is kept has one proof. What a piece is does not matter but for its
size.
-/

set_option autoImplicit false

namespace OsKernel.Lib

variable {β : Type} {size : β → Int}

/-- The pieces fill `[lo, hi)`. -/
structure Tiling (size : β → Int) (lo hi : Int) (at' : Int → Option β) : Prop where
  inside : ∀ {i b}, at' i = some b → lo ≤ i ∧ i + size b ≤ hi ∧ 0 < size b
  disjoint : ∀ {i j b b'}, at' i = some b → at' j = some b' → i < j → i + size b ≤ j
  cover : ∀ {x}, lo ≤ x → x < hi → ∃ i b, at' i = some b ∧ i ≤ x ∧ x < i + size b

/-- The map with the pieces of `[lo, hi)` replaced. -/
def splice (lo hi : Int) (new old : Int → Option β) : Int → Option β :=
  fun i => if lo ≤ i ∧ i < hi then new i else old i

/-- One piece. -/
def onePiece (lo : Int) (b : β) : Int → Option β := Function.update (fun _ => none) lo (some b)

/-- Two pieces, one behind the other. -/
def twoPieces (lo mid : Int) (b b' : β) : Int → Option β :=
  Function.update (onePiece lo b) mid (some b')

variable {lo hi mid a z : Int} {old new : Int → Option β} {b b' : β}

theorem onePiece_eq {i : Int} {c : β} : onePiece lo b i = some c ↔ i = lo ∧ c = b := by
  unfold onePiece
  by_cases h : i = lo
  · subst h
    rw [Function.update_self]
    exact ⟨fun hc => ⟨rfl, (Option.some.inj hc).symm⟩, fun hc => by rw [hc.2]⟩
  · rw [Function.update_of_ne h]
    exact ⟨(fun hc => by cases hc), fun hc => absurd hc.1 h⟩

theorem twoPieces_eq {i : Int} {c : β} (hne : lo ≠ mid) :
    twoPieces lo mid b b' i = some c ↔ (i = lo ∧ c = b) ∨ (i = mid ∧ c = b') := by
  unfold twoPieces
  by_cases h : i = mid
  · subst h
    rw [Function.update_self]
    exact ⟨fun hc => .inr ⟨rfl, (Option.some.inj hc).symm⟩, fun hc =>
      hc.elim (fun h => absurd h.1.symm hne) fun h => by rw [h.2]⟩
  · rw [Function.update_of_ne h, onePiece_eq]
    exact ⟨.inl, fun hc => hc.elim id fun h' => absurd h'.1 h⟩

namespace Tiling

theorem one (h : lo + size b = hi) (hpos : 0 < size b) : Tiling size lo hi (onePiece lo b) := by
  constructor
  · intro i c hc
    obtain ⟨rfl, rfl⟩ := onePiece_eq.mp hc
    exact ⟨Int.le_refl _, Int.le_of_eq h, hpos⟩
  · intro i j c c' hc hc' hlt
    obtain ⟨rfl, -⟩ := onePiece_eq.mp hc
    obtain ⟨rfl, -⟩ := onePiece_eq.mp hc'
    exact absurd hlt (Int.lt_irrefl _)
  · intro x hx hx'
    exact ⟨lo, b, onePiece_eq.mpr ⟨rfl, rfl⟩, hx, h ▸ hx'⟩

theorem two (h : lo + size b = mid) (h' : mid + size b' = hi) (hpos : 0 < size b)
    (hpos' : 0 < size b') : Tiling size lo hi (twoPieces lo mid b b') := by
  have hne : lo ≠ mid := by omega
  constructor
  · intro i c hc
    rcases (twoPieces_eq hne).mp hc with ⟨rfl, rfl⟩ | ⟨rfl, rfl⟩
    · omega
    · omega
  · intro i j c c' hc hc' hlt
    rcases (twoPieces_eq hne).mp hc with ⟨rfl, rfl⟩ | ⟨rfl, rfl⟩
    · rcases (twoPieces_eq hne).mp hc' with ⟨rfl, -⟩ | ⟨rfl, -⟩
      · omega
      · omega
    · rcases (twoPieces_eq hne).mp hc' with ⟨rfl, -⟩ | ⟨rfl, -⟩
      · omega
      · omega
  · intro x hx hx'
    by_cases hmid : x < mid
    · exact ⟨lo, b, (twoPieces_eq hne).mpr (.inl ⟨rfl, rfl⟩), hx, by omega⟩
    · exact ⟨mid, b', (twoPieces_eq hne).mpr (.inr ⟨rfl, rfl⟩), by omega, by omega⟩

/-- Two pieces that share a point are one. -/
theorem unique (T : Tiling size a z old) {i j x : Int} (hi : old i = some b) (hj : old j = some b')
    (hx : i ≤ x ∧ x < i + size b) (hx' : j ≤ x ∧ x < j + size b') : i = j := by
  by_contra hne
  rcases Int.lt_or_lt_of_ne hne with hlt | hlt
  · have h := T.disjoint hi hj hlt
    omega
  · have h := T.disjoint hj hi hlt
    omega

theorem apart (T : Tiling size a z old) {i j : Int} (hi : old i = some b) (hj : old j = some b')
    (hne : i ≠ j) : i + size b ≤ j ∨ j + size b' ≤ i := by
  rcases Int.lt_or_lt_of_ne hne with hlt | hlt
  · exact .inl (T.disjoint hi hj hlt)
  · exact .inr (T.disjoint hj hi hlt)

/-- The piece behind another one. -/
theorem after (T : Tiling size a z old) {i : Int} (hi : old i = some b) (hz : i + size b < z) :
    ∃ c, old (i + size b) = some c := by
  obtain ⟨hlo, -, hpos⟩ := T.inside hi
  obtain ⟨j, c, hj, hle, hlt⟩ := T.cover (x := i + size b) (by omega) hz
  rcases Int.lt_trichotomy j (i + size b) with h | h | h
  · rcases Int.lt_trichotomy i j with h' | h' | h'
    · have hd := T.disjoint hi hj h'
      omega
    · subst h'
      rw [hi] at hj
      cases hj
      omega
    · have hd := T.disjoint hj hi h'
      omega
  · exact ⟨c, h ▸ hj⟩
  · omega

/-- The piece in front of another one. -/
theorem before (T : Tiling size a z old) {i : Int} (hi : old i = some b) (ha : a < i) :
    ∃ j c, old j = some c ∧ j + size c = i := by
  obtain ⟨hlo, hhi, hpos⟩ := T.inside hi
  obtain ⟨j, c, hj, hle, hlt⟩ := T.cover (x := i - 1) (by omega) (by omega)
  have hd := T.disjoint hj hi (by omega)
  exact ⟨j, c, hj, by omega⟩

/-- No piece of `old` crosses an end of `[lo, hi)`. -/
def Cut (size : β → Int) (old : Int → Option β) (lo hi : Int) : Prop :=
  ∀ {i b}, old i = some b → i + size b ≤ lo ∨ (lo ≤ i ∧ i + size b ≤ hi) ∨ hi ≤ i

theorem splice_inside {i : Int} (h : lo ≤ i ∧ i < hi) : splice lo hi new old i = new i := if_pos h

theorem splice_outside {i : Int} (h : ¬(lo ≤ i ∧ i < hi)) : splice lo hi new old i = old i :=
  if_neg h

/-- A piece after `splice` is a new one, or an old one outside of the range. -/
theorem splice_eq (T : Tiling size a z old) (N : Tiling size lo hi new)
    (hcut : Cut size old lo hi) {i : Int} {c : β} :
    splice lo hi new old i = some c ↔
      new i = some c ∨ (old i = some c ∧ (i + size c ≤ lo ∨ hi ≤ i)) := by
  by_cases h : lo ≤ i ∧ i < hi
  · rw [splice_inside h]
    refine ⟨.inl, fun hc => hc.elim id fun hold => ?_⟩
    have hpos := (T.inside hold.1).2.2
    omega
  · rw [splice_outside h]
    constructor
    · intro hold
      have hpos := (T.inside hold).2.2
      rcases hcut hold with hc | hc | hc
      · exact .inr ⟨hold, .inl hc⟩
      · omega
      · exact .inr ⟨hold, .inr hc⟩
    · rintro (hnew | hold)
      · have hin := N.inside hnew
        omega
      · exact hold.1

theorem splice (T : Tiling size a z old) (N : Tiling size lo hi new) (hcut : Cut size old lo hi)
    (ha : a ≤ lo) (hz : hi ≤ z) : Tiling size a z (splice lo hi new old) := by
  constructor
  · intro i c hc
    rcases (splice_eq T N hcut).mp hc with hnew | ⟨hold, -⟩
    · have hin := N.inside hnew
      omega
    · exact T.inside hold
  · intro i j c c' hc hc' hlt
    rcases (splice_eq T N hcut).mp hc with hnew | ⟨hold, hout⟩
    · rcases (splice_eq T N hcut).mp hc' with hnew' | ⟨hold', hout'⟩
      · exact N.disjoint hnew hnew' hlt
      · have hin := N.inside hnew
        have hpos := (T.inside hold').2.2
        omega
    · rcases (splice_eq T N hcut).mp hc' with hnew' | ⟨hold', -⟩
      · have hin := N.inside hnew'
        omega
      · exact T.disjoint hold hold' hlt
  · intro x hx hx'
    by_cases hin : lo ≤ x ∧ x < hi
    · obtain ⟨i, c, hnew, hle, hlt⟩ := N.cover hin.1 hin.2
      exact ⟨i, c, (splice_eq T N hcut).mpr (.inl hnew), hle, hlt⟩
    · obtain ⟨i, c, hold, hle, hlt⟩ := T.cover hx hx'
      refine ⟨i, c, (splice_eq T N hcut).mpr (.inr ⟨hold, ?_⟩), hle, hlt⟩
      rcases hcut hold with h | h | h
      · exact .inl h
      · omega
      · exact .inr h

/-- Consecutive pieces make up a range that no piece crosses. -/
theorem cut_of_ends (T : Tiling size a z old) {i j : Int} (hi : old i = some b)
    (hj : old j = some b') : Cut size old i (j + size b') := by
  intro k c hk
  rcases Int.lt_trichotomy k i with h | h | h
  · exact .inl (T.disjoint hk hi h)
  · subst h
    rw [hi] at hk
    cases hk
    rcases Int.lt_trichotomy k j with h' | h' | h'
    · have hd := T.disjoint hi hj h'
      have hpos := (T.inside hj).2.2
      exact .inr (.inl ⟨Int.le_refl _, by omega⟩)
    · subst h'
      rw [hi] at hj
      cases hj
      exact .inr (.inl ⟨Int.le_refl _, Int.le_refl _⟩)
    · exact .inr (.inr (T.disjoint hj hi h'))
  · rcases Int.lt_trichotomy k j with h' | h' | h'
    · have hd := T.disjoint hk hj h'
      have hpos := (T.inside hj).2.2
      exact .inr (.inl ⟨by omega, by omega⟩)
    · subst h'
      rw [hj] at hk
      cases hk
      exact .inr (.inl ⟨by omega, Int.le_refl _⟩)
    · exact .inr (.inr (T.disjoint hj hk h'))

/-! ## A tiling by what is not merged

Pieces of two kinds, the ones of one kind never side by side. The pieces of the other kind then
determine all of them. -/

section Determined

variable {free : β → Bool} {old' : Int → Option β}

/-- No two free pieces touch. -/
def Apart (size : β → Int) (free : β → Bool) (at' : Int → Option β) : Prop :=
  ∀ {i b c}, at' i = some b → free b = true → at' (i + size b) = some c → free c = false

/-- A free piece begins where one of the other tiling does. -/
theorem start_of_apart (T : Tiling size a z old) (T' : Tiling size a z old')
    (hap : Apart size free old)
    (hsame : ∀ i b, free b = false → (old i = some b ↔ old' i = some b)) {i : Int}
    (hi : old i = some b) (hfree : free b = true) : ∃ c, old' i = some c ∧ free c = true := by
  obtain ⟨hlo, hhi, hpos⟩ := T.inside hi
  obtain ⟨j, c, hj, hle, hlt⟩ := T'.cover hlo (by omega)
  have hcfree : free c = true := by
    by_contra hc
    have hold := (hsame j c (by simpa using hc)).mpr hj
    obtain rfl := T.unique hi hold (x := i) ⟨Int.le_refl _, by omega⟩ ⟨hle, hlt⟩
    rw [hi] at hold
    cases hold
    exact hc hfree
  rcases Int.lt_or_eq_of_le hle with hji | rfl
  · -- the piece in front of `i` is not free, and so is one of the other tiling as well
    obtain ⟨hlo', -, -⟩ := T'.inside hj
    obtain ⟨k, d, hk, hend⟩ := T.before hi (by omega)
    have hd : free d = false := by
      by_contra hd
      have hb := hap hk (by simpa using hd) (hend ▸ hi)
      rw [hfree] at hb
      cases hb
    have hdpos := (T.inside hk).2.2
    have hk' := (hsame k d hd).mp hk
    obtain rfl := T'.unique hk' hj (x := i - 1) ⟨by omega, by omega⟩ ⟨by omega, by omega⟩
    rw [hk'] at hj
    cases hj
    rw [hd] at hcfree
    cases hcfree
  · exact ⟨c, hj, hcfree⟩

/-- A free piece is not longer than one of the other tiling that begins there. -/
theorem size_le_of_apart (T : Tiling size a z old) (T' : Tiling size a z old')
    (hap' : Apart size free old')
    (hsame : ∀ i b, free b = false → (old i = some b ↔ old' i = some b)) {i : Int}
    (hi : old i = some b) (hi' : old' i = some b') (hfree' : free b' = true) :
    size b ≤ size b' := by
  by_contra hlt
  have hin := T.inside hi
  have hin' := T'.inside hi'
  obtain ⟨d, hd⟩ := T'.after hi' (by omega)
  have hdf := hap' hi' hfree' hd
  have hold := (hsame _ d hdf).mpr hd
  have hdpos := (T.inside hold).2.2
  have heq := T.unique hi hold (x := i + size b') ⟨by omega, by omega⟩ ⟨by omega, by omega⟩
  omega

theorem eq_of_apart (T : Tiling size a z old) (T' : Tiling size a z old')
    (hap : Apart size free old) (hap' : Apart size free old')
    (hsame : ∀ i b, free b = false → (old i = some b ↔ old' i = some b))
    (hext : ∀ b c, free b = true → free c = true → size b = size c → b = c) : old = old' := by
  have hsame' : ∀ i b, free b = false → (old' i = some b ↔ old i = some b) :=
    fun i b hb => (hsame i b hb).symm
  have hsizes : ∀ {i b c}, old i = some b → free b = true → old' i = some c → free c = true →
      b = c := fun hb hbf hc hcf =>
    hext _ _ hbf hcf (Int.le_antisymm (T.size_le_of_apart T' hap' hsame hb hc hcf)
      (T'.size_le_of_apart T hap hsame' hc hb hbf))
  funext i
  refine Option.ext fun b => ?_
  cases hf : free b with
  | false => exact hsame i b hf
  | true =>
    constructor
    · intro hb
      obtain ⟨c, hc, hcf⟩ := T.start_of_apart T' hap hsame hb hf
      rw [hsizes hb hf hc hcf]
      exact hc
    · intro hb
      obtain ⟨c, hc, hcf⟩ := T'.start_of_apart T hap' hsame' hb hf
      rw [← hsizes hc hcf hb hf]
      exact hc

end Determined

end Tiling

end OsKernel.Lib
